import FheBlockchain.Chain.Gossip

namespace FheBlockchain.Chain.PoolGossip

open Core.Transactions Core.Blocks Core.Messages Computer.Computations Computer.Messages Store.Pools
open Store.Chainstate hiding M addTx
open Validation Manager Routing RoutingFacts Views Gossip
open Node (addTx addComputation handle SameChains addTx_sameChains addComputation_sameChains)
open Library.Execution Library.Transitions
open Library.Flooding (Sane)

variable {fhe : OpenFhe} {p : Setup fhe} {s t : ChainManager} {tx : Transaction} {txid : Bytes}

section Verdict

def admits (na : Sodium) (cs : MemChainstate) (tx : Transaction) : Bool :=
  match tx.inputs.mapM fun inp ↦ cs.storage.lookup inp.key with
  | none => false
  | some recs => (tx.txid na).isOk &&
      decide (tx.validateTransaction na (recs.map UTXORecord.pubkey) (recs.map UTXORecord.amount) =
        .ok true)

variable {na : Sodium}

theorem foldl_refer_txStorage (pooled : PooledTx) (outs : List TransactionOutput) (pool : MemPool) :
    (outs.foldl (fun pool outp ↦ MemPool.refer pooled (MemPool.outputHash na outp) pool)
      pool).txStorage = pool.txStorage := by
  induction outs generalizing pool with
  | nil => rfl
  | cons outp outs ih => exact ih _

theorem addValidTx_new {pooled : PooledTx} {pool : MemPool} {fee : UInt64}
    (hid : pooled.tx.txid na = .ok txid) (hfee : pooled.fee = .ok fee)
    (hnew : pool.txStorage.lookup txid = none) :
    ∃ pool', MemPool.addValidTx na pooled pool = .ok true pool' ∧
      pool'.txStorage = pool.txStorage.insert txid pooled := by
  rw [MemPool.addValidTx, hid, run_bind_ofExcept_ok, run_bind_get, hnew]
  simp only [Option.isSome_none, Bool.false_eq_true, if_false]
  rw [run_bind_set, hfee, run_bind_ofExcept_ok, run_bind_modify, run_bind_modify]
  exact ⟨_, rfl, foldl_refer_txStorage _ _ _⟩

theorem addValidTx_known {pooled : PooledTx} {pool : MemPool}
    (hid : pooled.tx.txid na = .ok txid) (hknown : (pool.txStorage.lookup txid).isSome) :
    MemPool.addValidTx na pooled pool = .ok false pool := by
  rw [MemPool.addValidTx, hid, run_bind_ofExcept_ok, run_bind_get, if_pos hknown]
  rfl

theorem txid_of_admits {cs : MemChainstate} (h : admits na cs tx = true) :
    ∃ txid, tx.txid na = .ok txid := by
  rw [admits] at h
  split at h
  · cases h
  · simp only [Bool.and_eq_true] at h
    exact Library.Results.isOk_iff.mp h.1

variable {env : Env}

theorem addTx_new (h : admits env.toSodium s.chainstate tx = true)
    (hid : tx.txid env.toSodium = .ok txid) (hnew : s.memPool.txStorage.lookup txid = none) :
    ∃ pool pooled, addTx env tx s = .ok true { s with memPool := pool } ∧ pooled.tx = tx ∧
      pool.txStorage = s.memPool.txStorage.insert txid pooled := by
  rw [admits] at h
  split at h
  · cases h
  · rename_i recs hrecs
    simp only [Bool.and_eq_true, decide_eq_true_eq] at h
    obtain ⟨-, fee, hfee⟩ := Exceptions.validateTransaction_true h.2
    let pooled : PooledTx := { tx := tx, inAmounts := recs.map UTXORecord.amount }
    obtain ⟨pool, hpool, hstorage⟩ := @addValidTx_new _ env.toSodium pooled _ _ hid hfee hnew
    refine ⟨pool, _, ?_, rfl, hstorage⟩
    rw [addTx, run_bind_get]
    simp only [hrecs, h.2, run_bind_ofExcept_ok, Bool.not_true, Bool.false_eq_true, if_false]
    exact focus_of_ok hpool

theorem addTx_known (h : admits env.toSodium s.chainstate tx = true)
    (hid : tx.txid env.toSodium = .ok txid) (hknown : (s.memPool.txStorage.lookup txid).isSome) :
    addTx env tx s = .ok false s := by
  rw [admits] at h
  split at h
  · cases h
  · rename_i recs hrecs
    simp only [Bool.and_eq_true, decide_eq_true_eq] at h
    rw [addTx, run_bind_get]
    simp only [hrecs, h.2, run_bind_ofExcept_ok, Bool.not_true, Bool.false_eq_true, if_false]
    exact focus_of_ok (addValidTx_known hid hknown)

theorem post_addTx_refused (h : admits env.toSodium s.chainstate tx = false) :
    Post (addTx env tx) s (fun added t ↦ added = false ∧ t = s) fun _ t ↦ t = s := by
  refine post_bind_get.mpr ?_
  rw [admits] at h
  split at h
  next hrecs =>
    simp only [hrecs]
    exact ⟨rfl, rfl⟩
  next recs hrecs =>
    simp only [hrecs]
    refine post_bind_ofExcept (fun valid hvalid ↦ ?_) fun _ _ ↦ rfl
    cases valid with
    | false => exact ⟨rfl, rfl⟩
    | true =>
      simp only [hvalid, decide_true, Bool.and_true] at h
      refine post_focus (post_bind_ofExcept (fun txid hid ↦ ?_) fun _ _ ↦ rfl)
      simp only at hid
      rw [hid] at h
      cases h

end Verdict

section Network

variable {N : Type} {links : N → List N} {w w' : State N} {n m : N} {U : Transaction → Prop}
variable {cs : N → MemChainstate}

def transactions (p : Setup fhe) (links : N → List N) (cs : N → MemChainstate) :
    Library.Flooding.Network N Bytes Transaction where
  key tx := (tx.txid p.env.toSodium).toOption.getD []
  links := links
  accepts n tx := admits p.env.toSodium (cs n) tx

theorem key_of_ok (h : tx.txid p.env.toSodium = .ok txid) :
    (transactions p links cs).key tx = txid := by
  simp only [transactions, h]
  rfl

def txView : View Bytes Transaction where
  held s k := (s.memPool.txStorage.lookup k).map PooledTx.tx
  read
    | .invTransaction txid => some (.inv txid)
    | .getTransaction txid => some (.get txid)
    | .infoTransaction msg => (Transaction.fromProto msg false).toOption.map .info
    | _ => none

def txEvent (p : Setup fhe) (w : State N) :
    Event fhe N → Option (Library.Flooding.Event N Bytes Transaction)
  | .startSync _ _ | .action _ .sayHello | .action _ (.computation _)
  | .action _ (.minedBlock _ _) => none
  | .action n (.transaction tx) =>
    if returns (act p (.transaction tx)) (w.parties n).manager fun _ _ ↦ true
    then some (.submit n tx) else none
  | .packet packet => (txView.packet packet).map .packet
  | .deliver i => w.flight[i]?.bind fun packet ↦
    match packet.message with
    | .listTransactions txids => some (.request packet.receiver txids)
    | message => (txView.read message).map fun _ ↦
      .deliver (Library.Flooding.place txView.packet w.flight i)

def BringsTx (U : Transaction → Prop) (_ : State N) : Event fhe N → Prop
  | .action _ (.transaction tx) => U tx
  | .packet ⟨_, _, .infoTransaction msg⟩ => ∀ tx, Transaction.fromProto msg false = .ok tx → U tx
  | _ => True

structure Idle (cs : N → MemChainstate) (w : State N) : Prop where
  chains : ∀ n, (w.parties n).manager.chainstate = cs n
  pools : ∀ n, (w.parties n).manager.memPool.txStorage = ∅
  flight : ∀ packet ∈ w.flight, family packet.message ≠ .transaction

theorem unread_of_family {msg : Message} (h : family msg ≠ .transaction) :
    txView.read msg = none := by
  cases msg <;> first | rfl | exact absurd rfl h

theorem Idle.state (h : Idle cs w) : txView.state w = .empty := by
  have hflight : w.flight.filterMap txView.packet = [] := by
    rw [List.filterMap_eq_nil_iff]
    intro packet hpacket
    rw [View.packet, unread_of_family (h.flight packet hpacket)]
    rfl
  simp only [View.state, hflight, Library.Flooding.State.empty]
  congr 1
  funext n k
  simp [txView, h.pools n]

theorem submitted_of_brings {event : Event fhe N}
    {e : Library.Flooding.Event N Bytes Transaction} (hb : BringsTx U w event)
    (he : txEvent p w event = some e) : (∀ tx ∈ e.submitted, U tx) ∧ e.isShrink = false := by
  cases event with
  | startSync n peer => cases he
  | action n action =>
    cases action with
    | sayHello | computation comp | minedBlock block amounts => cases he
    | transaction tx =>
      rw [txEvent] at he
      split_ifs at he
      cases he
      refine ⟨fun tx' htx' ↦ ?_, rfl⟩
      cases htx'
      exact hb
  | packet packet =>
    obtain ⟨n, m, message⟩ := packet
    obtain ⟨packet', hpacket, rfl⟩ := Option.map_eq_some_iff.mp he
    obtain ⟨msg', hmsg', rfl⟩ := Option.map_eq_some_iff.mp hpacket
    refine ⟨fun tx htx ↦ ?_, rfl⟩
    cases message with
    | infoTransaction msg =>
      obtain ⟨tx', htx', rfl⟩ := Option.map_eq_some_iff.mp hmsg'
      cases htx
      exact hb tx (ok_of_toOption htx')
    | invTransaction txid | getTransaction txid =>
      cases hmsg'
      cases htx
    | _ => cases hmsg'
  | deliver i =>
    obtain ⟨packet, -, he⟩ := Option.bind_eq_some_iff.mp he
    split at he
    · cases he
      exact ⟨fun tx htx ↦ (by cases htx), rfl⟩
    · obtain ⟨msg', -, rfl⟩ := Option.map_eq_some_iff.mp he
      exact ⟨fun tx htx ↦ (by cases htx), rfl⟩

section Keeping

variable {isSynced : Bool} {msg : Message}

theorem held_of_pool (h : t.memPool = s.memPool) : txView.held t = txView.held s := by
  funext k
  simp only [txView, h]

theorem post_addComputation_pool {env : Env} (c : Computation) :
    Post (addComputation env c) s (fun _ t ↦ t.memPool = s.memPool) fun _ t ↦ t.memPool = s.memPool :=
  rfl

theorem pool_of_moves (h : Moves p (carried p msg) s t) (hblock : carriesBlock msg = false)
    (htx : ∀ tx, msg ≠ .infoTransaction tx) : t.memPool = s.memPool := by
  rcases h with rfl | ⟨e, he, hlead⟩
  · rfl
  · cases msg with
    | infoBlock b => cases hblock
    | infoTransaction tx => exact absurd rfl (htx tx)
    | infoComputation comp =>
      obtain ⟨c, -, rfl⟩ := Option.map_eq_some_iff.mp he
      exact hlead.of_post (Q := fun t ↦ t.memPool = s.memPool) (post_addComputation_pool c)
    | _ => cases he

theorem post_route_unread (hread : txView.read msg = none) (hblock : carriesBlock msg = false)
    (hlist : ∀ txids, msg ≠ .listTransactions txids) :
    Post (route p isSynced msg) s
      (fun r t ↦ (∀ msg ∈ messages r, txView.read msg = none) ∧ txView.held t = txView.held s)
      fun _ t ↦ txView.held t = txView.held s := by
  by_cases hmsg : family msg = .transaction
  · cases msg with
    | infoTransaction tx =>
      refine post_bind_ofExcept (fun tx' htx ↦ ?_) fun _ _ ↦ rfl
      simp [txView, htx, Except.toOption] at hread
    | syncTransactions =>
      refine post_bind_get.mpr (post_pure.mpr ⟨fun msg hmem ↦ ?_, rfl⟩)
      simp only [messages, Reaction.respond, Option.toList_some, List.append_nil,
        List.mem_singleton] at hmem
      rw [hmem]
      rfl
    | listTransactions txids => exact absurd rfl (hlist txids)
    | invTransaction txid | getTransaction txid => cases hread
    | _ => cases hmsg
  · have hne : ∀ tx, msg ≠ .infoTransaction tx := by
      rintro tx rfl
      exact hmsg rfl
    refine (post_route isSynced msg).mono (fun r t ht ↦ ⟨fun msg' hmem ↦ ?_, ?_⟩) fun _ t ht ↦ ?_
    · rcases family_of_routed ht hmem with he | rfl
      · exact unread_of_family (he ▸ hmsg)
      · rfl
    · exact held_of_pool (pool_of_moves ht.moves hblock hne)
    · exact held_of_pool (pool_of_moves ht hblock hne)

theorem post_act_computation (comp : FHEComputer fhe) :
    Post (act p (.computation comp)) s
      (fun r t ↦ (∀ msg ∈ messages r, txView.read msg = none) ∧ txView.held t = txView.held s)
      fun _ t ↦ txView.held t = txView.held s := by
  refine post_bind_ofExcept (fun c _ ↦ ?_) fun _ _ ↦ rfl
  refine ((post_addComputation_pool c).mono (fun _ _ ht ↦ ht) fun _ _ ht ↦ held_of_pool ht).bind
    fun _ t ht ↦ post_pure.mpr ⟨fun msg hmem ↦ ?_, ?_⟩
  · rw [List.mem_singleton.mp hmem]
    rfl
  · exact held_of_pool ht

end Keeping

variable [DecidableEq N]

theorem chainstate_of_step {event : Event fhe N} (hcalm : calm w event = true)
    (h : step p links w event = some w') (n : N) :
    (w'.parties n).manager.chainstate = (w.parties n).manager.chainstate := by
  rcases step_moves h n with heq | ⟨e, he, hlead⟩
  · rw [heq]
  · cases e with
    | tx tx => exact (hlead.of_post (addTx_sameChains _ tx)).chainstate
    | computation c => exact (hlead.of_post (addComputation_sameChains _ c)).chainstate
    | block block mined =>
      cases event with
      | startSync m peer | packet packet => cases he
      | action m action =>
        rw [fed] at he
        split_ifs at he
        · cases action with
          | minedBlock block amounts => cases hcalm
          | computation comp =>
            obtain ⟨c, -, hc⟩ := Option.map_eq_some_iff.mp he
            cases hc
          | sayHello | transaction tx => cases he
        · cases he
      | deliver i =>
        obtain ⟨packet, hi, he⟩ := Option.bind_eq_some_iff.mp he
        rw [calm, hi, Option.all_some, Bool.not_eq_true'] at hcalm
        split_ifs at he
        · obtain ⟨sender, receiver, message⟩ := packet
          cases message with
          | infoBlock b => cases hcalm
          | infoTransaction tx | infoComputation comp =>
            obtain ⟨c, -, hc⟩ := Option.map_eq_some_iff.mp he
            cases hc
          | _ => cases he

theorem store_transaction {pooled : PooledTx} {k : Bytes} {pool : MemPool}
    (hpool : pool.txStorage = (w.parties n).manager.memPool.txStorage.insert k pooled) :
    { txView.state w with
      held := Function.update (txView.state w).held n
        (txView.held { (w.parties n).manager with memPool := pool }) } =
      (txView.state w).store n k pooled.tx := by
  have hheld : txView.held { (w.parties n).manager with memPool := pool } =
      Function.update ((txView.state w).held n) k (some pooled.tx) := by
    funext x
    rw [Function.update_apply]
    simp only [txView, View.state, hpool, Library.FiniteMap.lookup_insert_ite]
    split_ifs <;> rfl
  rw [Library.Flooding.State.store, hheld]

theorem react_info {msg : ProtoTransaction} (hcs : ∀ n, (w.parties n).manager.chainstate = cs n)
    (h : w.receive p links ⟨n, m, .infoTransaction msg⟩ = some w')
    (hread : Transaction.fromProto msg false = .ok tx) :
    (transactions p links cs).react ⟨n, m, .info tx⟩ (txView.state w) = txView.state w' := by
  have hheld (k : Bytes) : (txView.state w).held m k =
      ((w.parties m).manager.memPool.txStorage.lookup k).map PooledTx.tx := rfl
  have haccepts : (transactions p links cs).accepts m tx =
      admits p.env.toSodium (w.parties m).manager.chainstate tx := by rw [hcs]; rfl
  simp only [Library.Flooding.Network.react, Library.Flooding.Network.takes, haccepts, hheld]
  cases hadmits : admits p.env.toSodium (w.parties m).manager.chainstate tx with
  | false =>
    rw [Bool.and_false, if_neg Bool.false_ne_true]
    refine (View.state_of_unseen h ?_).symm
    refine post_bind_ofExcept (fun tx' htx' ↦ ?_) fun _ _ ↦ rfl
    obtain rfl := Except.ok.inj (hread.symm.trans htx')
    refine post_bind_ofExcept (fun txid _ ↦ post_bind_get.mpr ?_) fun _ _ ↦ rfl
    split_ifs
    · exact post_pure.mpr ⟨by simp [messages, Reaction.silent], rfl⟩
    · refine ((post_addTx_refused hadmits).mono (fun _ _ ht ↦ ht) fun _ t ht ↦ by rw [ht]).bind ?_
      rintro _ t ⟨rfl, rfl⟩
      exact post_pure.mpr ⟨by simp [messages, Reaction.silent], rfl⟩
  | true =>
    obtain ⟨txid, hid⟩ := txid_of_admits hadmits
    rw [Bool.and_true, key_of_ok hid]
    cases hk : (w.parties m).manager.memPool.txStorage.lookup txid with
    | some pooled =>
      have hroute : route p (w.parties m).isSynced (.infoTransaction msg) (w.parties m).manager =
          .ok .silent (w.parties m).manager := by simp [route, handleInfoTx, hread, hid, hk]
      rw [View.state_of_same h hroute, View.packets_silent]
      simp [Library.Flooding.State.send]
    | none =>
      obtain ⟨pool, pooled, hadd, rfl, hpool⟩ := addTx_new hadmits hid hk
      have hroute : route p (w.parties m).isSynced (.infoTransaction msg) (w.parties m).manager =
          .ok (.broadcast [.invTransaction txid])
            { (w.parties m).manager with memPool := pool } := by
        simp only [route, handleInfoTx, hread, run_bind_ofExcept_ok, hid, run_bind_get, hk,
          Option.isSome_none, Bool.false_eq_true, if_false]
        rw [run_bind_of_ok hadd]
        rfl
      rw [View.state_of_ok h hroute, store_transaction hpool, View.packets_broadcast,
        List.flatMap_singleton, View.filterMap_toAll rfl]
      rfl

theorem react_transaction (hU : ∀ tx, U tx → Transaction.Sendable false tx)
    (hcs : ∀ n, (w.parties n).manager.chainstate = cs n)
    (hs : Sane (transactions p links cs) U (txView.state w)) {packet : Packet N}
    {msg : Library.Flooding.Message Bytes Transaction}
    (h : w.receive p links packet = some w') (hmsg : txView.read packet.message = some msg) :
    (transactions p links cs).react ⟨packet.sender, packet.receiver, msg⟩ (txView.state w) =
      txView.state w' := by
  obtain ⟨n, m, message⟩ := packet
  have hheld (k : Bytes) : (txView.state w).held m k =
      ((w.parties m).manager.memPool.txStorage.lookup k).map PooledTx.tx := rfl
  cases message with
  | invTransaction txid =>
    cases hmsg
    simp only [Library.Flooding.Network.react, hheld]
    cases hk : (w.parties m).manager.memPool.txStorage.lookup txid with
    | some pooled =>
      have hroute : route p (w.parties m).isSynced (.invTransaction txid) (w.parties m).manager =
          .ok .silent (w.parties m).manager := by simp [route, handleInvTx, hk]
      rw [View.state_of_same h hroute, View.packets_silent]
      simp [Library.Flooding.State.send]
    | none =>
      have hroute : route p (w.parties m).isSynced (.invTransaction txid) (w.parties m).manager =
          .ok (.respond (.getTransaction txid)) (w.parties m).manager := by
        simp [route, handleInvTx, hk]
      rw [View.state_of_same h hroute, View.packets_respond]
      rfl
  | getTransaction txid =>
    cases hmsg
    simp only [Library.Flooding.Network.react, hheld]
    cases hk : (w.parties m).manager.memPool.txStorage.lookup txid with
    | none =>
      have hroute : route p (w.parties m).isSynced (.getTransaction txid) (w.parties m).manager =
          .ok .silent (w.parties m).manager := by simp [route, handleGetTx, hk]
      rw [View.state_of_same h hroute, View.packets_silent]
      simp [Library.Flooding.State.send]
    | some pooled =>
      have hroute : route p (w.parties m).isSynced (.getTransaction txid) (w.parties m).manager =
          .ok (.respond (.infoTransaction (Transaction.toProto pooled.tx))) (w.parties m).manager := by
        simp [route, handleGetTx, hk]
      have hread : Transaction.fromProto (Transaction.toProto pooled.tx) false = .ok pooled.tx :=
        Transaction.fromProto_toProto (hU _ (hs.held ((hheld txid).trans (by rw [hk]; rfl))).2.2)
      have hseen : txView.packet (⟨m, n, .infoTransaction (Transaction.toProto pooled.tx)⟩ : Packet N) =
          some ⟨m, n, .info pooled.tx⟩ := by
        simp only [View.packet, txView, hread]
        rfl
      rw [View.state_of_same h hroute, View.packets_respond, List.filterMap_cons, hseen]
      rfl
  | infoTransaction msg =>
    obtain ⟨tx, htx, rfl⟩ := Option.map_eq_some_iff.mp hmsg
    exact react_info hcs h (ok_of_toOption htx)
  | _ => cases hmsg

theorem post_act_refused (h : admits p.env.toSodium s.chainstate tx = false) :
    Post (act p (.transaction tx)) s
      (fun r t ↦ (∃ txid, tx.txid p.env.toSodium = .ok txid ∧
        r = .broadcast [.invTransaction txid]) ∧ t = s) fun _ t ↦ t = s := by
  refine ((post_addTx_refused h).mono (fun _ _ ht ↦ ht.2) fun _ _ ht ↦ ht).bind ?_
  rintro _ t rfl
  exact post_bind_ofExcept (fun txid hid ↦ ⟨⟨txid, hid, rfl⟩, rfl⟩) fun _ _ ↦ rfl

theorem act_of_addTx {added : Bool} (h : addTx p.env tx s = .ok added t)
    (hid : tx.txid p.env.toSodium = .ok txid) :
    act p (.transaction tx) s = .ok (.broadcast [.invTransaction txid]) t := by
  rw [act, run_bind_of_ok h, hid]
  rfl

theorem submit_of_act (h : w.perform links n none (act p (.transaction tx)) = some w')
    (hid : tx.txid p.env.toSodium = .ok txid)
    (hact : act p (.transaction tx) (w.parties n).manager = .ok (.broadcast [.invTransaction txid]) t)
    (hheld : Function.update (txView.state w).held n (txView.held t) =
      (if (transactions p links cs).takes (txView.state w) n tx then
        (txView.state w).store n txid tx else txView.state w).held) :
    (txEvent p w (.action n (.transaction tx))).elim (txView.state w' = txView.state w) fun e ↦
      (transactions p links cs).step (txView.state w) e = some (txView.state w') := by
  have hevent : txEvent p w (.action n (.transaction tx)) = some (.submit n tx) := by
    rw [txEvent, if_pos (returns_iff.mpr ⟨_, _, hact, rfl⟩)]
  have hkey : (transactions p links cs).key tx = txid := key_of_ok hid
  have hsent : (packets links n none (w.parties n).syncPeer
      (.broadcast [.invTransaction txid])).filterMap txView.packet =
        (transactions p links cs).announce n txid := by
    rw [View.packets_broadcast, List.flatMap_singleton, View.filterMap_toAll rfl]
    rfl
  rw [hevent, View.state_of_ok h hact, hheld, hsent]
  refine congrArg some ?_
  rw [Library.Flooding.Network.submit, hkey]
  split_ifs <;> rfl

theorem tx_submit (hcs : ∀ n, (w.parties n).manager.chainstate = cs n)
    (h : w.perform links n none (act p (.transaction tx)) = some w') :
    (txEvent p w (.action n (.transaction tx))).elim (txView.state w' = txView.state w) fun e ↦
      (transactions p links cs).step (txView.state w) e = some (txView.state w') := by
  have hheld (k : Bytes) : (txView.state w).held n k =
      ((w.parties n).manager.memPool.txStorage.lookup k).map PooledTx.tx := rfl
  have haccepts : (transactions p links cs).accepts n tx =
      admits p.env.toSodium (w.parties n).manager.chainstate tx := by rw [hcs]; rfl
  cases hadmits : admits p.env.toSodium (w.parties n).manager.chainstate tx with
  | false =>
    have hrefused := post_act_refused hadmits
    rw [Post] at hrefused
    have htakes : (transactions p links cs).takes (txView.state w) n tx = false := by
      rw [Library.Flooding.Network.takes, haccepts, hadmits, Bool.and_false]
    rcases View.state_perform (v := txView) h with ⟨r, hrun, -⟩ | ⟨e, hrun, he⟩
    · rw [hrun] at hrefused
      obtain ⟨⟨txid, hid, rfl⟩, hsame⟩ := hrefused
      refine submit_of_act h hid hrun ?_
      rw [htakes, hsame, View.update_same rfl]
      rfl
    · rw [hrun] at hrefused
      have hevent : txEvent p w (.action n (.transaction tx)) = none := by
        rw [txEvent, if_neg]
        rw [returns_iff, hrun]
        simp
      rw [hrefused, View.update_same rfl] at he
      rw [hevent]
      exact he
  | true =>
    obtain ⟨txid, hid⟩ := txid_of_admits hadmits
    have hkey : (transactions p links cs).key tx = txid := key_of_ok hid
    cases hk : (w.parties n).manager.memPool.txStorage.lookup txid with
    | some pooled =>
      have htakes : (transactions p links cs).takes (txView.state w) n tx = false := by
        rw [Library.Flooding.Network.takes, hkey, hheld, hk]
        rfl
      refine submit_of_act h hid (act_of_addTx (addTx_known hadmits hid (by rw [hk]; rfl)) hid) ?_
      rw [htakes, View.update_same rfl]
      rfl
    | none =>
      obtain ⟨pool, pooled, hadd, rfl, hpool⟩ := addTx_new hadmits hid hk
      have htakes : (transactions p links cs).takes (txView.state w) n pooled.tx = true := by
        rw [Library.Flooding.Network.takes, haccepts, hadmits, hkey, hheld, hk]
        rfl
      refine submit_of_act h hid (act_of_addTx hadd hid) ?_
      rw [htakes, if_pos rfl, ← store_transaction hpool]

/-- Between two blocks each step of the network is a step of the flooding of
transactions, or the flooding does not see it. -/
theorem tx_step (hU : ∀ tx, U tx → Transaction.Sendable false tx)
    (hcs : ∀ n, (w.parties n).manager.chainstate = cs n)
    (hs : Sane (transactions p links cs) U (txView.state w)) {event : Event fhe N}
    (hcalm : calm w event = true) (h : step p links w event = some w') :
    (txEvent p w event).elim (txView.state w' = txView.state w) fun e ↦
      (transactions p links cs).step (txView.state w) e = some (txView.state w') := by
  cases event with
  | startSync n peer => exact View.state_startSync h rfl
  | packet packet =>
    cases h
    have hsent := View.state_send (v := txView) (w := w) [packet]
    rw [txEvent]
    cases hp : txView.packet packet with
    | none =>
      rw [List.filterMap_cons, hp] at hsent
      simpa [Library.Flooding.State.send] using hsent
    | some packet' =>
      rw [List.filterMap_cons, hp] at hsent
      exact congrArg some hsent.symm
  | action n action =>
    have h : w.perform links n none (act p action) = some w' := h
    cases action with
    | sayHello =>
      refine View.state_of_unseen h (post_pure.mpr ⟨fun msg hmsg ↦ ?_, rfl⟩)
      rw [List.mem_singleton.mp hmsg]
      rfl
    | computation comp => exact View.state_of_unseen h (post_act_computation comp)
    | minedBlock block amounts => cases hcalm
    | transaction tx => exact tx_submit hcs h
  | deliver i =>
    obtain ⟨packet, hi, hreceive⟩ := Option.bind_eq_some_iff.mp h
    rw [calm, hi, Option.all_some, Bool.not_eq_true'] at hcalm
    rw [txEvent, hi, Option.bind_some]
    split
    next txids hlist =>
      have hread : txView.read packet.message = none := by rw [hlist]; rfl
      have hroute : route p (w.parties packet.receiver).isSynced packet.message
          (w.parties packet.receiver).manager =
            .ok (.broadcast (txids.map .getTransaction)) (w.parties packet.receiver).manager := by
        rw [hlist]
        rfl
      have hstate := View.state_of_same (v := txView) hreceive hroute
      rw [View.state_erase hi hread, View.packets_broadcast] at hstate
      refine congrArg some (hstate.trans ?_).symm
      rw [List.flatMap_map, List.filterMap_flatMap]
      refine congrArg (Library.Flooding.State.send · _) (List.flatMap_congr fun txid _ ↦ ?_)
      exact View.filterMap_toAll rfl
    next hlist =>
      cases hread : txView.read packet.message with
      | none =>
        have hunseen := View.state_of_unseen hreceive (post_route_unread hread hcalm hlist)
        rw [View.state_erase hi hread] at hunseen
        exact hunseen
      | some msg =>
        have hsane : Sane (transactions p links cs) U
            (txView.state { w with flight := w.flight.eraseIdx i }) :=
          hs.sub ((List.eraseIdx_sublist _ i).filterMap _).subset
        have hreact := react_transaction (w := { w with flight := w.flight.eraseIdx i }) hU hcs hsane hreceive hread
        exact (View.step_deliver hi hread).trans (congrArg some hreact)

theorem flooding_of_run (hU : ∀ tx, U tx → Transaction.Sendable false tx) (hidle : Idle cs w)
    (h : Run (step p links) (fun w event ↦ BringsTx U w event ∧ calm w event = true) w w') :
    Run (transactions p links cs).step
      (fun s e ↦ Library.Flooding.Submits U s e ∧ e.isShrink = false) .empty (txView.state w') := by
  rw [← hidle.state]
  refine h.project fun t event u hrun hflood hb hstep ↦ ?_
  rw [hidle.state] at hflood
  have hcs : ∀ n, (t.parties n).manager.chainstate = cs n :=
    hrun.invariant (I := fun t ↦ ∀ n, (t.parties n).manager.chainstate = cs n) hidle.chains
      fun t event u ht hb hstep n ↦ (chainstate_of_step hb.2 hstep n).trans (ht n)
  have hsane := Library.Flooding.sane_of_run (hflood.mono fun _ _ hb ↦ hb.1)
  have htx := tx_step hU hcs hsane hb.2 hstep
  cases he : txEvent p t event with
  | none =>
    rw [he] at htx
    exact .inl htx
  | some e =>
    rw [he] at htx
    exact .inr ⟨e, submitted_of_brings hb.1 he, htx⟩

/-- From empty pools and as long as no block comes, whatever is sent, a pool holds
only transactions that came from outside somewhere, each under its own TXID and
admitted by its node. -/
theorem pools_brought (hU : ∀ tx, U tx → Transaction.Sendable false tx) (hidle : Idle cs w)
    (h : Run (step p links) (fun w event ↦ BringsTx U w event ∧ calm w event = true) w w')
    {k : Bytes} {pooled : PooledTx}
    (hk : (w'.parties n).manager.memPool.txStorage.lookup k = some pooled) :
    pooled.tx.txid p.env.toSodium = .ok k ∧ admits p.env.toSodium (cs n) pooled.tx = true ∧
      U pooled.tx := by
  have hflood : Run (transactions p links cs).step _ .empty _ := flooding_of_run hU hidle h
  have hheld : (txView.state w').held n k = some pooled.tx := congrArg (Option.map PooledTx.tx) hk
  obtain ⟨hkey, hadmits, hu⟩ :=
    (Library.Flooding.sane_of_run (hflood.mono fun _ _ hb ↦ hb.1)).held hheld
  obtain ⟨txid, hid⟩ := txid_of_admits hadmits
  rw [key_of_ok hid] at hkey
  exact ⟨hkey ▸ hid, hadmits, hu⟩

/-- From empty pools and as long as no block comes: once no message about transactions
is on its way, connected nodes that judge by the same outputs have pooled the same
transactions. -/
theorem pools_agree {cs : MemChainstate} (hU : ∀ tx, U tx → Transaction.Sendable false tx)
    (hidle : Idle (fun _ ↦ cs) w)
    (h : Run (step p links) (fun w event ↦ BringsTx U w event ∧ calm w event = true) w w')
    (hquiet : ∀ packet ∈ w'.flight, family packet.message ≠ .transaction)
    (hnm : Relation.ReflTransGen (fun n m ↦ m ∈ links n) n m) {k : Bytes}
    (hk : ((w'.parties n).manager.memPool.txStorage.lookup k).isSome) :
    ((w'.parties m).manager.memPool.txStorage.lookup k).isSome := by
  have hflood : Run (transactions p links fun _ ↦ cs).step _ .empty _ := flooding_of_run hU hidle h
  obtain ⟨hsane, hcovered⟩ := Library.Flooding.covered_of_run hflood
  have hempty : (txView.state w').flight = [] := by
    refine List.filterMap_eq_nil_iff.mpr fun packet hpacket ↦ ?_
    rw [View.packet, unread_of_family (hquiet packet hpacket)]
    rfl
  have hheld (n : N) : ((txView.state w').held n k).isSome =
      ((w'.parties n).manager.memPool.txStorage.lookup k).isSome := Option.isSome_map
  rw [← hheld] at hk ⊢
  exact hcovered.agree_connected hsane hempty (fun _ _ _ ha ↦ ha) hnm hk

section Sample

open Accepted

def samplePayment : Transaction where
  inputs := [{
    txid := ((coinbaseTransaction sampleKey 50 0).txid sampleEnv.toSodium).toOption.getD []
    vout := 0
    sig := List.replicate 64 7
    isSigned := true
    sigSize := TransactionInput.sentSigSize false }]
  outputs := [{ amount := 40, publicKey := sampleKey }]

def paidId : Bytes := (samplePayment.txid sampleEnv.toSodium).toOption.getD []

theorem samplePayment_sendable : ∀ tx, tx = samplePayment → Transaction.Sendable false tx := by
  rintro tx rfl inp hinp
  rw [List.mem_singleton.mp hinp]
  exact .signed rfl

theorem sampleNetwork_idle : Idle (fun _ ↦ sampleStart.chainstate) sampleNetwork :=
  ⟨fun _ ↦ rfl, fun _ ↦ rfl, by simp [sampleNetwork]⟩

/-- The wallet of one node pays, and the other node asks for the transaction,
first when it hears of it and then because some message lists it. -/
def samplePaid : List (Event HeaderEncoding.byteFhe Bool) :=
  [.action false (.transaction samplePayment),
    .packet ⟨false, true, .listTransactions [paidId]⟩,
    .deliver 0, .deliver 0, .deliver 0, .deliver 0, .deliver 0, .deliver 0, .deliver 0]

theorem samplePaid_brings : ∀ event ∈ samplePaid, ∀ w,
    BringsTx (fun tx ↦ tx = samplePayment) w event := by
  intro event hevent w
  simp only [samplePaid, List.mem_cons, List.not_mem_nil, or_false] at hevent
  rcases hevent with rfl | rfl | rfl | rfl | rfl | rfl | rfl | rfl | rfl
  · rfl
  all_goals trivial

theorem samplePaid_taken : ∃ w, takeAll (step sampleSetup sampleLinks)
      (fun w event ↦ calm w event = true) samplePaid sampleNetwork = some w ∧ w.flight = [] ∧
    ∀ n, ((w.parties n).manager.memPool.txStorage.lookup paidId).isSome := by
  have htaken : (takeAll (step sampleSetup sampleLinks) (fun w event ↦ calm w event = true)
      samplePaid sampleNetwork).any (fun w ↦ w.flight.length = 0 ∧ ∀ n,
        ((w.parties n).manager.memPool.txStorage.lookup paidId).isSome) = true := by decide +kernel
  obtain ⟨w, hw, h⟩ := (Option.any_eq_true _ _).mp htaken
  rw [decide_eq_true_eq] at h
  exact ⟨w, hw, List.length_eq_zero_iff.mp h.1, h.2⟩

theorem pools_brought_sample : ∃ w k pooled,
    Run (step sampleSetup sampleLinks)
      (fun w event ↦ BringsTx (fun tx ↦ tx = samplePayment) w event ∧ calm w event = true)
      sampleNetwork w ∧
    (w.parties true).manager.memPool.txStorage.lookup k = some pooled ∧
    pooled.tx.txid sampleEnv.toSodium = .ok k ∧
    admits sampleEnv.toSodium sampleStart.chainstate pooled.tx = true ∧
    pooled.tx = samplePayment := by
  obtain ⟨w, hw, -, hpools⟩ := samplePaid_taken
  obtain ⟨pooled, hpooled⟩ := Option.isSome_iff_exists.mp (hpools true)
  have hrun := run_of_takeAll_forall hw samplePaid_brings
  exact ⟨w, _, pooled, hrun, hpooled, pools_brought (p := sampleSetup) samplePayment_sendable
    sampleNetwork_idle hrun hpooled⟩

theorem pools_agree_sample : ∃ w : State Bool, w.flight = [] ∧
    ((w.parties false).manager.memPool.txStorage.lookup paidId).isSome ∧
    ((w.parties true).manager.memPool.txStorage.lookup paidId).isSome := by
  obtain ⟨w, hw, hflight, hpools⟩ := samplePaid_taken
  refine ⟨w, hflight, hpools false, pools_agree (p := sampleSetup) (n := false)
    samplePayment_sendable sampleNetwork_idle (run_of_takeAll_forall hw samplePaid_brings)
    (by simp [hflight]) (.single ?_) (hpools false)⟩
  simp [sampleLinks]

end Sample

end Network

end FheBlockchain.Chain.PoolGossip
