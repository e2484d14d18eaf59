import FheBlockchain.Chain.Replay
import FheBlockchain.Store.CoinFacts

namespace FheBlockchain.Chain.WalletCoins

open Core.Transactions Core.Blocks Store.ChainstateEffects Store.ChainstateRewind
open Store.ChainstateKeys Store.Pools Store.CoinFacts Validation ValidationFacts Manager AppendFacts
open Accepted Exceptions Ledgers ReorgFacts Placement Node Replay
open Store.Chainstate hiding M addBlock
open Store.Coins hiding M
open Library.Execution Library.Results

variable {env : Env} {cfg : Config} {V : List Block → MemChainstate → Block → Prop}
variable {s t : ChainManager} {store : MemBlockStore} {block : Block} {blocks : List Block}
variable {cs : MemChainstate} {w : Wallet}

section Apart

def ApartFrom (na : Sodium) (b b' : Block) : Prop :=
  ∀ cb ∈ b.transactions.head?, ∀ inp ∈ cb.inputs, inp.key ∉ createdIn na [b']

instance (na : Sodium) (b b' : Block) : Decidable (ApartFrom na b b') :=
  inferInstanceAs (Decidable (∀ cb ∈ b.transactions.head?, ∀ inp ∈ cb.inputs, _))

def Apart (env : Env) (store : MemBlockStore) : Prop :=
  ∀ h h' b b', store.lookup h = some b → store.lookup h' = some b' → ApartFrom env.toSodium b b'

structure Joins (env : Env) (store : MemBlockStore) (block : Block) : Prop where
  self : ApartFrom env.toSodium block block
  stored : ∀ h b, store.lookup h = some b →
    ApartFrom env.toSodium block b ∧ ApartFrom env.toSodium b block

theorem Apart.joins (h : Apart env store) {hash : Bytes} (hb : store.lookup hash = some block) :
    Joins env store block :=
  ⟨h _ _ _ _ hb hb, fun _ _ hb' ↦ ⟨h _ _ _ _ hb hb', h _ _ _ _ hb' hb⟩⟩

theorem Apart.storeBlock (h : Apart env store) (hj : Joins env store block) (hash : Bytes)
    (head : BlockHeader) : Apart env (store.storeBlock hash (link env head block)).1 := by
  intro k k' b b' hb hb'
  rcases storeBlock_cases hb with hb | ⟨-, -, rfl⟩ <;>
    rcases storeBlock_cases hb' with hb' | ⟨-, -, rfl⟩
  · exact h _ _ _ _ hb hb'
  · exact (hj.stored k b hb).2
  · exact (hj.stored k' b' hb').1
  · exact hj.self

theorem post_append_apart {v : Option (List (List UInt64))} (h : Apart env s.blockStore)
    (hj : ∀ head txs, Ready env cfg s block v head txs → Joins env s.blockStore block) :
    Post (appendBlock env cfg block v) s (fun _ t ↦ Apart env t.blockStore)
      (fun _ t ↦ Apart env t.blockStore) := by
  have hall {t : ChainManager} (ht : Appended env cfg s block v t) : Apart env t.blockStore := by
    rcases ht with rfl | ⟨head, txs, hr, -, -, hstore, -⟩
    · exact h
    · rcases hstore with hstore | hstore
      · rwa [hstore]
      · rw [hstore]
        exact h.storeBlock (hj head txs hr) _ head
  exact (post_append_chain s block v).mono (fun _ _ ht ↦ hall ht) fun _ _ ht ↦ hall ht

theorem post_addBlock_apart {mined : Option (List (List UInt64))} (h : Apart env s.blockStore)
    (hj : ∀ head, Placed env cfg s block mined head → Joins env s.blockStore block) :
    Post (addBlock env cfg block mined) s (fun _ t ↦ Apart env t.blockStore)
      (fun _ t ↦ Apart env t.blockStore) := by
  refine post_addBlock (Q := fun t ↦ Apart env t.blockStore) h (fun _ _ _ ht ↦ ht) (fun hon ↦ ?_)
    (fun k fork hoff hfind hvalid ↦ ?_) fun i src total hoff hfind hatt hvalid ↦ ?_
  · exact (post_append_apart h fun head txs hr ↦ hj head (.main hon hr)).mono
      (fun _ _ ht _ ↦ ht) fun _ _ ht ↦ ht
  · have hstored := h.storeBlock (hj _ (.fork hoff hfind hvalid)) (block.hash env.toSodium) fork.head
    exact ⟨fun _ ↦ hstored, fun _ ↦ post_reorg_store (P := Apart env)
      (fun t k b ht hb ↦ post_append_apart ht fun _ _ _ ↦ ht.joins hb) hstored⟩
  · exact h.storeBlock (hj _ (.newFork hoff hfind hatt hvalid)) (block.hash env.toSodium) src

theorem apart_start (hs : create env cfg w = .ok s) : Apart env s.blockStore := by
  obtain ⟨genesis, hgen, rfl⟩ := create_ok hs
  intro k k' b b' hb hb'
  rw [started_lookup] at hb hb'
  split_ifs at hb hb'
  obtain rfl := Option.some.inj hb
  obtain rfl := Option.some.inj hb'
  obtain ⟨htxs, txid, htxid⟩ := genesis_ok hgen
  intro cb hcb inp hinp hmem
  rw [htxs, List.head?_cons, Option.mem_some_iff] at hcb
  subst hcb
  simp only [createdIn, chainTxs, List.flatMap_cons, List.flatMap_nil, htxs, flagged,
    List.map_nil, List.append_nil, createdByTx, txEffect] at hmem
  obtain ⟨i, hi, he⟩ := mem_outputsOf.mp hmem
  simp only [coinbaseTransaction, List.mem_singleton, List.length_singleton] at hinp hi
  obtain rfl : i = 0 := by omega
  rw [hinp] at he
  exact absurd (txidVoutPairToKey_inj he).2 (by decide)

end Apart

section Coins

theorem createdIn_flatMap (na : Sodium) (blocks : List Block) :
    createdIn na blocks = blocks.flatMap fun b ↦ createdIn na [b] := by
  induction blocks with
  | nil => rfl
  | cons b blocks ih =>
    rw [List.flatMap_cons, ← ih]
    simp [createdIn, chainTxs]

theorem harmless_of_apart {consumed : List Bytes}
    (hkeyed : Keyed cs (createdIn env.toSodium blocks) consumed)
    (hself : ApartFrom env.toSodium block block)
    (hapart : ∀ b ∈ blocks, ApartFrom env.toSodium block b) (height : UInt32) :
    Harmless env.toSodium cs block height := by
  intro k hk
  obtain ⟨tx, htx, hk⟩ := List.mem_flatMap.mp hk
  cases htxs : block.transactions with
  | nil => simp [htxs] at htx
  | cons cb rest =>
    rw [htxs, List.mem_cons] at htx
    rcases htx with rfl | htx
    · refine .inr ?_
      obtain ⟨inp, hinp, rfl⟩ := List.mem_map.mp hk
      have hcb : tx ∈ block.transactions.head? := by simp [htxs]
      refine ⟨fun hc ↦ hself tx hcb inp hinp ?_, ?_⟩
      · have := createdIn_append env.toSodium [] block height
        rw [List.nil_append] at this
        rw [this]
        exact List.mem_append_right _ hc
      · by_contra hne
        obtain ⟨rec, hrec⟩ := Option.ne_none_iff_exists'.mp hne
        have hold := (hkeyed.unspent _ rec hrec).1
        rw [createdIn_flatMap] at hold
        obtain ⟨b, hb, hold⟩ := List.mem_flatMap.mp hold
        exact hapart b hb tx hcb inp hinp hold
    · refine .inl ?_
      rw [consumedBy_blockEffects, htxs]
      refine List.mem_flatMap.mpr ⟨(false, tx), by simp [flagged, htx], ?_⟩
      simpa [consumedByTx, txEffect] using List.mem_map.mp hk

def rescanBlock (env : Env) (store : MemBlockStore) (header : BlockHeader) : Store.Coins.M Unit := do
  let block ← Exec.ofExcept (store.getBlock (header.hash env.toSodium))
  modify (spendBlock block)
  filterBlock env.toSodium block

theorem rescanBlock_run {height : UInt32} (hst : Stored env store block)
    (hids : ∀ tx ∈ block.transactions, ∃ txid, tx.txid env.toSodium = .ok txid)
    (hown : OwnCoins cs w) (hfresh : Fresh cs (blockEffects env.toSodium block height))
    (hnd : (createdKeys (blockEffects env.toSodium block height)).Nodup)
    (hharmless : Harmless env.toSodium cs block height) :
    ∃ w', rescanBlock env store block.header w = .ok () w' ∧ w'.publicKey = w.publicKey ∧
      OwnCoins (applyAll (blockEffects env.toSodium block height) cs) w' := by
  refine ⟨block.transactions.foldl (receiveAll env.toSodium) (spendBlock block w), ?_, ?_,
    ownCoins_rescan hown hfresh hnd hharmless⟩
  · rw [rescanBlock, show block.header.hash env.toSodium = block.hash env.toSodium from rfl,
      getBlock_of_lookup hst, run_bind_ofExcept_ok, run_bind_modify]
    exact filterBlock_run hids _
  · rw [(taken_block hnd).publicKey, publicKey_spendBlock]

/-- A rescan of a ledger of stored blocks, which are all apart, finds the
outputs that pay the wallet. -/
theorem rescan_ledger (hled : Ledger env cfg V blocks cs)
    (hstored : ∀ b ∈ blocks, Stored env store b) (hapart : Apart env store) (w : Wallet) :
    ∃ w', rescan env.toSodium (blocks.map Block.header) store w = .ok () w' ∧
      w'.publicKey = w.publicKey ∧ OwnCoins cs w' := by
  suffices hloop : ∃ w', (blocks.map Block.header).forM (rescanBlock env store)
      { w with coins := ∅ } = .ok () w' ∧ w'.publicKey = w.publicKey ∧ OwnCoins cs w' by
    exact hloop
  have hapart' {b b' : Block} (hb : Stored env store b) (hb' : Stored env store b') :
      ApartFrom env.toSodium b b' := hapart _ _ _ _ hb hb'
  induction hled with
  | @genesis genesis hgen =>
    have hst := hstored genesis (by simp)
    have htake := genesis_takeable hgen
    have hnd := (@keyed_genesis env cfg w genesis hgen).1
    rw [← List.nil_append [genesis], createdIn_append _ _ _ 0] at hnd
    have hnd' : (createdKeys (blockEffects env.toSodium genesis 0)).Nodup := hnd
    have hempty : OwnCoins .empty { w with coins := ∅ } := ownCoins_iff.mpr fun k ↦ by
      simp [held, MemChainstate.empty]
    have hkeyed : Keyed .empty (createdIn env.toSodium []) [] := keyed_empty
    have hharmless : Harmless env.toSodium .empty genesis 0 :=
      harmless_of_apart hkeyed (hapart' hst hst) (by simp) 0
    obtain ⟨w', hrun, hkey, hown⟩ := rescanBlock_run hst htake.ids hempty
      (keyed_empty.fresh (htake.spendable_at 0) hnd) hnd' hharmless
    refine ⟨w', ?_, hkey, hown⟩
    rw [List.map_singleton, forM_cons, hrun]
    rfl
  | @append blocks block prev cs hold hprev hlink htake hnd _ ih =>
    obtain ⟨w₁, hrun, hkey, hown⟩ := ih fun b hb ↦ hstored b (by simp [hb])
    have hst := hstored block (by simp)
    rw [createdIn_append _ _ _ (UInt32.ofNat blocks.length)] at hnd
    have hfresh := hold.keyed.2.fresh (htake.spendable_at (UInt32.ofNat blocks.length)) hnd
    obtain ⟨w₂, hlast, hkey', hown'⟩ := rescanBlock_run hst htake.ids hown hfresh
      hnd.of_append_right (harmless_of_apart hold.keyed.2 (hapart' hst hst)
        (fun b hb ↦ hapart' hst (hstored b (by simp [hb]))) _)
    refine ⟨w₂, ?_, hkey'.trans hkey, hown'⟩
    rw [List.map_append, forM_append_of_ok hrun, List.map_singleton, forM_cons, hlast]
    rfl

end Coins

section Runs

theorem post_reorg_rescans (k : ℕ) (fork : Fork) (s : ChainManager) :
    Post (reorg env cfg k fork) s
      (fun _ u ↦ ∃ w, rescan env.toSodium u.mainChain.headerChain u.blockStore w = .ok () u.wallet ∧
        w.publicKey = s.wallet.publicKey) (fun _ _ ↦ True) := by
  cases hat : s.mainChain.headerChain[fork.chainSrc.toNat]? with
  | none =>
    rw [Post, reorg]
    simp only [run_bind_get, headerAt, hat, run_bind_ofExcept_error]
  | some srcHeader =>
    let K (t : ChainManager) : Prop := t.wallet = s.wallet
    have hrewind (headers : List BlockHeader) (t : ChainManager) (ht : K t) :
        Post (rewindHeaders env headers) t (fun _ ↦ K) (fun _ _ ↦ True) := by
      refine (post_rewindHeaders headers t).mono (fun _ u hu ↦ ?_) fun _ _ _ ↦ trivial
      rw [hu]
      exact ht
    have happend (t : ChainManager) (h : Bytes) (b : Block) (ht : K t) (_ : t.blockStore.lookup h = some b) :
        Post (appendBlock env cfg b none) t (fun _ ↦ K) (fun _ _ ↦ True) := by
      refine (post_append_chain t b none).mono (fun _ u hu ↦ ?_) fun _ _ _ ↦ trivial
      rcases hu with rfl | ⟨head, txs, -, hgrown⟩
      · exact ht
      · exact hgrown.wallet.trans ht
    have hend (u : ChainManager) (hu : K u) : Post (@rescanned env u) u
        (fun _ u ↦ ∃ w, rescan env.toSodium u.mainChain.headerChain u.blockStore w =
          .ok () u.wallet ∧ w.publicKey = s.wallet.publicKey) (fun _ _ ↦ True) := by
      refine post_focus ?_
      rw [Post]
      split
      next w hw => exact ⟨u.wallet, hw, by rw [hu]⟩
      · trivial
      · trivial
    rw [Post, reorg_eq hat, ← Post]
    refine (hrewind _ s rfl).bind fun _ t ht ↦ post_bind_modify.mpr ?_
    refine (post_appendFork_keeps (K := K) happend (fun _ _ ↦ trivial) 0 _
      (s := truncated (fork.chainSrc.toNat + 1) t) ht).bind fun r u hu ↦ ?_
    cases r with
    | none => exact post_bind_modify.mpr (post_bind_get.mpr (hend _ hu))
    | some idx =>
      refine post_bind_get.mpr ((hrewind _ u hu).bind fun _ t ht ↦ post_bind_modify.mpr ?_)
      refine Post.bind (R := fun _ ↦ K) ?_ fun _ v hv ↦ ?_
      · refine post_forM (fun header _ v hv ↦ ?_) (show K (truncated _ t) from ht)
        refine post_bind_get.mpr (post_bind_ofExcept (fun b hb ↦ ?_) fun _ _ ↦ trivial)
        refine (happend v _ b hv (getBlock_ok hb)).bind fun r z hz ↦ ?_
        cases r with
        | false => trivial
        | true => exact hz
      · refine post_bind_ofExcept (fun trimmed _ ↦ ?_) fun _ _ ↦ trivial
        exact post_bind_modify.mpr (post_bind_get.mpr (hend _ hv))

theorem next_fresh {v : Option (List (List UInt64))} {head : BlockHeader} {txs : List PooledTx}
    (h : Sound env cfg V s) (hr : Ready env cfg s block v head txs)
    (hstorable : Storable env cfg V s.blockStore (link env head block))
    (htake : Takeable env.toSodium s.chainstate block) (hj : Joins env s.blockStore block) :
    Fresh s.chainstate (nextEffects env s block) ∧ (createdKeys (nextEffects env s block)).Nodup ∧
      Harmless env.toSodium s.chainstate block (UInt32.ofNat s.mainChain.headerChain.length) := by
  obtain ⟨blocks, hblocks, hled, hall⟩ := h.main
  obtain ⟨prev, hprev, hhead⟩ : ∃ prev, blocks.getLast? = some prev ∧ prev.header = head := by
    have hlast := hr.head_eq
    rwa [hblocks, List.getLast?_map, Option.map_eq_some_iff] at hlast
  have hlink : (link env head block).header.prevBlockHeader = some (prev.hash env.toSodium) := by
    rw [← hhead]
    rfl
  have hnd := hstorable.fresh blocks _ prev hled hall hprev hlink ⟨htake.ids, htake.proven, htake.spendable⟩
  rw [createdIn_append _ _ _ (UInt32.ofNat s.mainChain.headerChain.length)] at hnd
  exact ⟨hled.keyed.2.fresh (htake.spendable_at _) hnd, hnd.of_append_right,
    harmless_of_apart hled.keyed.2 hj.self (fun b hb ↦ (hj.stored _ b (hall b hb)).1) _⟩

theorem post_appendAndUpdate {v : Option (List (List UInt64))} (h : Sound env cfg V s)
    (hown : OwnCoins s.chainstate s.wallet)
    (hd : ∀ head txs, Ready env cfg s block v head txs →
      Storable env cfg V s.blockStore (link env head block) ∧
        Takeable env.toSodium s.chainstate block ∧ Joins env s.blockStore block) :
    Post (appendAndUpdate env cfg block v) s
      (fun _ t ↦ OwnCoins t.chainstate t.wallet ∧ t.wallet.publicKey = s.wallet.publicKey)
      (fun _ _ ↦ True) := by
  let Q (added : Bool) (t : ChainManager) : Prop := t.wallet = s.wallet ∧
    if added then Takeable env.toSodium s.chainstate block ∧
      t.chainstate = applyAll (nextEffects env s block) s.chainstate ∧
      Fresh s.chainstate (nextEffects env s block) ∧
      (createdKeys (nextEffects env s block)).Nodup ∧
      Harmless env.toSodium s.chainstate block (UInt32.ofNat s.mainChain.headerChain.length)
    else t.chainstate = s.chainstate
  refine Post.bind (R := Q) (post_appendBlock (fun _ ↦ ⟨rfl, rfl⟩) (fun _ _ ↦ trivial)
    (fun head txs hr ↦ (hd head txs hr).2.1) fun head txs hr ↦ ?_) fun added t ht ↦ ?_
  · obtain ⟨hstorable, htake, hj⟩ := hd head txs hr
    exact (post_true _ _).mono
      (fun _ pool _ ↦ ⟨rfl, htake, rfl, next_fresh h hr hstorable htake hj⟩) fun _ _ _ ↦ trivial
  · cases added with
    | false =>
      obtain ⟨hw, hcs⟩ := ht
      refine post_pure.mpr ?_
      rw [show t.chainstate = s.chainstate from hcs, hw]
      exact ⟨hown, rfl⟩
    | true =>
      obtain ⟨hw, htake, hcs, hfresh, hnd, hharmless⟩ := ht
      refine Post.bind (R := fun _ t ↦
        OwnCoins t.chainstate t.wallet ∧ t.wallet.publicKey = s.wallet.publicKey) ?_ fun _ _ h ↦ h
      rw [Post, updateWallet_run (identified_of_takeable htake)]
      dsimp only
      rw [hcs, hw]
      exact ⟨ownCoins_arrival hown hfresh hnd hharmless,
        publicKey_spendBlock.trans (taken_block hnd).publicKey⟩

structure InStep (env : Env) (cfg : Config) (pubkey : PublicKey) (s : ChainManager) : Prop where
  sound : Sound env cfg (fun _ _ _ ↦ True) s
  apart : Apart env s.blockStore
  own : OwnCoins s.chainstate s.wallet
  publicKey : s.wallet.publicKey = pubkey

/-- What is asked of a block that `add_block` takes in: it may be stored where it
is linked, and no input of a first transaction is an output of a stored block,
this one included. -/
def Respected (env : Env) (cfg : Config) (s : ChainManager) (event : Event) : Prop :=
  Delivered env cfg (fun _ _ _ ↦ True) s event ∧ match event with
    | .block block mined =>
      ∀ head, Placed env cfg s block mined head → Joins env s.blockStore block
    | _ => True

theorem post_handle_inStep {pubkey : PublicKey} (h : InStep env cfg pubkey s) {event : Event}
    (hr : Respected env cfg s event) :
    Post (handle env cfg event) s (fun _ ↦ InStep env cfg pubkey) (fun _ _ ↦ True) := by
  have hsound := post_handle_sound (fun _ _ _ _ _ _ _ ↦ trivial) h.sound hr.1
  have hsame {t : ChainManager} (ht : SameChains s t) (hs : Sound env cfg (fun _ _ _ ↦ True) t) :
      InStep env cfg pubkey t := by
    refine ⟨hs, ?_, ?_, ?_⟩
    · rw [ht.blockStore]
      exact h.apart
    · rw [ht.chainstate, ht.wallet]
      exact h.own
    · rw [ht.wallet]
      exact h.publicKey
  cases event with
  | tx tx =>
    exact ((addTx_sameChains s tx).and hsound).mono (fun _ _ ht ↦ hsame ht.1 ht.2)
      fun _ _ _ ↦ trivial
  | computation comp =>
    exact ((addComputation_sameChains s comp).and hsound).mono (fun _ _ ht ↦ hsame ht.1 ht.2)
      fun _ _ _ ↦ trivial
  | block block mined =>
    obtain ⟨hd, hj⟩ := hr
    have hapart := post_addBlock_apart h.apart hj
    let Q (t : ChainManager) : Prop := Sound env cfg (fun _ _ _ ↦ True) t → Apart env t.blockStore →
      OwnCoins t.chainstate t.wallet ∧ t.wallet.publicKey = pubkey
    have hcoins : Post (addBlock env cfg block mined) s (fun _ ↦ Q) (fun _ _ ↦ True) := by
      refine post_addBlock_places (fun _ _ ↦ ⟨h.own, h.publicKey⟩) (fun _ _ ↦ trivial) (fun hon ↦ ?_)
        (fun k fork _ _ _ ↦ ⟨fun _ _ _ ↦ ⟨h.own, h.publicKey⟩, fun _ ↦ ?_⟩)
        fun _ _ _ _ _ _ _ _ _ ↦ ⟨h.own, h.publicKey⟩
      · refine (post_appendAndUpdate h.sound h.own fun head txs hr ↦ ?_).mono
          (fun _ _ ht _ _ ↦ ⟨ht.1, ht.2.trans h.publicKey⟩) fun _ _ _ ↦ trivial
        obtain ⟨hstorable, hmined⟩ := hd head (.main hon hr)
        refine ⟨hstorable, ?_, hj head (.main hon hr)⟩
        cases mined with
        | some amounts => exact (hmined rfl).1
        | none => exact takeable_of_validated hr.checked
      · refine (post_reorg_rescans k _ _).mono (fun _ u hu hs ha ↦ ?_) fun _ _ _ ↦ trivial
        obtain ⟨w, hrescan, hkey⟩ := hu
        obtain ⟨blocks, hblocks, hled, hall⟩ := hs.main
        obtain ⟨w', hrun, hkey', hown⟩ := rescan_ledger hled hall ha w
        rw [← hblocks, hrescan] at hrun
        cases hrun
        exact ⟨hown, hkey'.trans (hkey.trans h.publicKey)⟩
    refine ((hcoins.and hapart).and hsound).mono
      (fun _ u hu ↦ ?_) fun _ _ _ ↦ trivial
    obtain ⟨⟨hq, ha⟩, hs⟩ := hu
    exact ⟨hs, ha, (hq hs ha).1, (hq hs ha).2⟩

/-- The states that a node reaches from `s` by calls that return. -/
inductive Calls (env : Env) (cfg : Config) (C : ChainManager → Event → Prop) (s : ChainManager) :
    ChainManager → Prop
  | start : Calls env cfg C s s
  | step {t u : ChainManager} {event : Event} {added : Bool} :
      Calls env cfg C s t → C t event → handle env cfg event t = .ok added u → Calls env cfg C s u

theorem Calls.invariant {C : ChainManager → Event → Prop} {I : ChainManager → Prop}
    (h : Calls env cfg C s t) (hs : I s)
    (step : ∀ s event, I s → C s event →
      Post (handle env cfg event) s (fun _ ↦ I) (fun _ _ ↦ True)) : I t := by
  induction h with
  | start => exact hs
  | step _ hC hrun ih =>
    have hpost := step _ _ ih hC
    rwa [Post, hrun] at hpost

def Agrees (env : Env) (s : ChainManager) : Prop :=
  OwnCoins s.chainstate s.wallet ∧
    ∃ w, rescan env.toSodium s.mainChain.headerChain s.blockStore s.wallet = .ok () w ∧
      ∀ k, held s.wallet k = held w k

theorem ownCoins_start (hs : create env cfg w = .ok s) (hempty : w.coins = ∅)
    (hother : cfg.publicKey ≠ w.publicKey) : OwnCoins s.chainstate s.wallet := by
  obtain ⟨genesis, hgen, rfl⟩ := create_ok hs
  have htake := genesis_takeable hgen
  have hnd := (@keyed_genesis env cfg w genesis hgen).1
  rw [← List.nil_append [genesis], createdIn_append _ _ _ 0] at hnd
  have hnd' : (createdKeys (blockEffects env.toSodium genesis 0)).Nodup := hnd
  have hfresh := keyed_empty.fresh (htake.spendable_at 0) hnd
  refine ownCoins_iff.mpr fun k ↦ ?_
  have hnone : held w k = none := by simp [held, hempty]
  change held w k = Option.map UTXORecord.amount
    (((applyAll (blockEffects env.toSodium genesis 0) .empty).storage.lookup k).filter
      fun rec ↦ rec.pubkey = w.publicKey)
  rw [hnone]
  by_cases hk : k ∈ createdKeys (blockEffects env.toSodium genesis 0)
  · obtain ⟨out, hout, rfl⟩ := List.mem_map.mp hk
    have hpays : out.2.pubkey = cfg.publicKey := by
      rw [createdBy, blockEffects, (genesis_ok hgen).1] at hout
      simp only [flagged, List.map_nil, List.map_cons, txEffect, coinbaseTransaction, outputsOf,
        List.flatMap_cons, List.flatMap_nil, List.append_nil, List.mem_singleton] at hout
      rw [hout]
    rw [applyAll_created hfresh hnd' hout]
    simp [hpays, hother]
  · rw [(applyAll_applied hfresh hnd').unspent k hk]
    simp [MemChainstate.empty]

/-- A wallet that the genesis block does not pay is in step in every state that
respected blocks lead to. -/
theorem wallet_agrees (hs : create env cfg w = .ok s) (hempty : w.coins = ∅)
    (hother : cfg.publicKey ≠ w.publicKey) (hcalls : Calls env cfg (Respected env cfg) s t) :
    Agrees env t := by
  have hstart : InStep env cfg w.publicKey s := by
    refine ⟨sound_start hs, apart_start hs, ownCoins_start hs hempty hother, ?_⟩
    obtain ⟨genesis, -, rfl⟩ := create_ok hs
    rfl
  have hend := hcalls.invariant hstart fun _ _ h hr ↦ post_handle_inStep h hr
  obtain ⟨blocks, hblocks, hled, hall⟩ := hend.sound.main
  obtain ⟨w', hrun, hkey, hown⟩ := rescan_ledger hled hall hend.apart t.wallet
  refine ⟨hend.own, w', by rw [hblocks, hrun], fun k ↦ ?_⟩
  rw [ownCoins_iff.mp hend.own k, ownCoins_iff.mp hown k, hkey]

end Runs

section Sample

def payment : Block := sampleBlock sampleGenesis 1 [coinbaseTransaction sampleWallet.publicKey 50 1]

theorem respected_payment :
    Respected sampleEnv sampleConfig sampleStart (.block payment none) := by
  have hnovel : Novel sampleEnv sampleStart (.block payment none) := by decide +kernel
  refine ⟨hnovel.delivered, fun head _ ↦ ⟨by decide +kernel, fun h b hb ↦ ?_⟩⟩
  have hgen : b = sampleGenesis := by
    rw [sampleStart, started_lookup] at hb
    split_ifs at hb
    exact (Option.some.inj hb).symm
  rw [hgen]
  exact ⟨by decide +kernel, by decide +kernel⟩

theorem wallet_agrees_payment : ∃ t,
    handle sampleEnv sampleConfig (.block payment none) sampleStart = .ok true t ∧
      Agrees sampleEnv t := by
  have hok : returns (handle sampleEnv sampleConfig (.block payment none)) sampleStart
      (fun added _ ↦ added) = true := by decide +kernel
  obtain ⟨_, t, ht, rfl⟩ := returns_iff.mp hok
  exact ⟨t, ht, wallet_agrees create_sample rfl (by decide) (.step .start respected_payment ht)⟩

theorem create_wallet (w w' : Wallet) :
    create env cfg w' = (create env cfg w).map fun s ↦ { s with wallet := w' } := by
  rw [create, create]
  cases Block.genesis env.toSodium cfg.timestamp cfg.difficulty cfg.publicKey cfg.reward with
  | error e => rfl
  | ok genesis =>
    simp only [bind, Except.bind]
    split_ifs
    · rfl
    · cases Store.Chainstate.addBlock env.toSodium genesis 0 MemChainstate.empty <;> rfl

def genesisWallet : Wallet := { sampleWallet with publicKey := sampleKey }

def genesisKey : Bytes :=
  txidVoutPairToKey
    (((coinbaseTransaction sampleKey 50 0).txid sampleEnv.toSodium).toOption.getD []) 0

theorem genesis_not_in_wallet :
    ¬ ∀ (env : Env) (cfg : Config) (w : Wallet) (s t : ChainManager),
      create env cfg w = .ok s → w.coins = ∅ → Calls env cfg Received s t → Agrees env t := by
  intro h
  have hcreate : create sampleEnv sampleConfig genesisWallet =
      .ok { sampleStart with wallet := genesisWallet } := by
    rw [create_wallet sampleWallet, create_sample]
    rfl
  have hown := ownCoins_iff.mp (h _ _ _ _ _ hcreate rfl .start).1 genesisKey
  revert hown
  decide +kernel

/-- A first transaction whose input refers to the coin of the wallet. -/
def strayInput : Block :=
  let coin : TransactionInput := {
    txid := ((coinbaseTransaction sampleWallet.publicKey 50 1).txid
      sampleEnv.toSodium).toOption.getD []
    vout := 0
    sig := []
    isSigned := true
    sigSize := 64 }
  sampleBlock payment 2 [{ inputs := [coin], outputs := [⟨50, sampleKey⟩] }]

theorem stray_input_erases : ∃ t,
    Calls sampleEnv sampleConfig Received sampleStart t ∧ ¬ Agrees sampleEnv t := by
  have hrun : returns (handle sampleEnv sampleConfig (.block payment none)) sampleStart
      (fun _ t ↦ returns (handle sampleEnv sampleConfig (.block strayInput none)) t fun _ u ↦
        decide (u.wallet.coins = ∅ ∧ ∃ k ∈ u.chainstate.storage.keys,
          (u.chainstate.storage.lookup k).map UTXORecord.pubkey = some u.wallet.publicKey)) =
      true := by decide +kernel
  obtain ⟨_, t, ht, hnext⟩ := returns_iff.mp hrun
  obtain ⟨_, u, hu, hfinal⟩ := returns_iff.mp hnext
  obtain ⟨hcoins, k, -, hk⟩ := of_decide_eq_true hfinal
  have hfirst : Received sampleStart (.block payment none) := rfl
  have hsecond : Received t (.block strayInput none) := rfl
  refine ⟨u, .step (.step .start hfirst ht) hsecond hu, fun h ↦ ?_⟩
  obtain ⟨rec, hrec, hpays⟩ := Option.map_eq_some_iff.mp hk
  have hown := ownCoins_iff.mp h.1 k
  simp [held, hcoins, hrec, hpays] at hown

end Sample

end FheBlockchain.Chain.WalletCoins
