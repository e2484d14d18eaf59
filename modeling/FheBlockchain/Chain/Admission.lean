import FheBlockchain.Chain.PoolGossip
import FheBlockchain.Store.PaymentViews

namespace FheBlockchain.Chain.Admission

open Core.Transactions Core.Messages Core.Signatures Core.Amounts
open Core.SigningFacts Core.SigningValid
open Store.Chainstate Store.Pools Store.Payments Store.PaymentFacts Store.PaymentViews
open Store.CoinFacts (OwnCoins held ownCoins_iff)
open Core.Signing hiding M
open Validation Manager Node PoolGossip
open Library Library.Execution Library.FiniteMap Library.Transitions

variable {na : Signer} {env : Env} {s : ChainManager} {w w' : Wallet} {mem : Memory}
variable {objs : List InputObject} {tx : SharedTransaction} {orig : ℕ → TransactionInput}
variable {publicKey recPubKey : PublicKey} {secretKey : Vector UInt8 64}
variable {order : List (Σ _ : Bytes, ℕ)} {amount fee : UInt64}

section Signed

theorem inputs_signedBy (hsigned : SignedBy na publicKey secretKey tx orig mem)
    (hreads : Reads mem tx.inputs objs) :
    objs.map InputObject.toTransactionInput = tx.inputs.map fun a ↦
      signed (orig a) (na.signDetached (signedMessage tx orig a publicKey) secretKey) := by
  rw [← List.forall₂_eq_eq_eq, List.forall₂_map_left_iff, List.forall₂_map_right_iff]
  refine (Results.forall₂_mem hreads).flip.imp fun obj a h ↦ ?_
  obtain ⟨obj', hobj', he⟩ := hsigned a h.1
  rw [h.2.2] at hobj'
  rw [Option.some.inj hobj', he]

theorem fitting_signed {inp : TransactionInput} (h : inp.txid.length = 32)
    (sig : Vector UInt8 64) : Fitting (signed inp sig) := by
  have hne : sig.toList ≠ [] := fun he ↦ by simpa using congrArg List.length he
  refine ⟨h, ?_⟩
  rw [sigField, signed, if_neg hne]
  simp [TransactionInput.clearSignature, signBytes]

theorem plainOf_sendable (na' : Sodium) (hsigned : SignedBy na publicKey secretKey tx orig mem)
    (hreads : Reads mem tx.inputs objs) (htxid : ∀ a ∈ tx.inputs, (orig a).txid.length = 32) :
    Transaction.Sendable false (plainOf objs tx.outputs) ∧
      ∃ txid, (plainOf objs tx.outputs).txid na' = .ok txid := by
  have hinput : ∀ inp ∈ (plainOf objs tx.outputs).inputs, ∃ a ∈ tx.inputs, ∃ sig,
      inp = signed (orig a) sig := by
    intro inp hinp
    rw [plainOf, inputs_signedBy hsigned hreads] at hinp
    obtain ⟨a, ha, rfl⟩ := List.mem_map.mp hinp
    exact ⟨a, ha, _, rfl⟩
  have hall : (plainOf objs tx.outputs).inputs.all TransactionInput.isSigned = true := by
    refine List.all_eq_true.mpr fun inp hinp ↦ ?_
    obtain ⟨a, -, sig, rfl⟩ := hinput inp hinp
    rfl
  have hfit : ∀ inp ∈ (plainOf objs tx.outputs).inputs, Fitting inp := by
    intro inp hinp
    obtain ⟨a, ha, sig, rfl⟩ := hinput inp hinp
    exact fitting_signed (htxid a ha) sig
  constructor
  · intro inp hinp
    obtain ⟨a, -, sig, rfl⟩ := hinput inp hinp
    exact .signed (by simp [TransactionInput.sentSigSize, signBytes])
  · refine ⟨na'.hash (encoding (plainOf objs tx.outputs)), ?_⟩
    rw [Transaction.txid, if_pos hall, serialize_of_fitting hfit]
    rfl

end Signed

section Funds

def Funded (cs : MemChainstate) (w : Wallet) : Prop :=
  ∀ k a coin, w.coins.lookup k = some a → w.memory[a]? = some coin → ∃ rec,
    cs.storage.lookup k = some rec ∧ rec.pubkey = w.publicKey ∧ rec.amount = coin.amount

theorem funded_of_own {v : Store.Coins.Wallet} {cs : MemChainstate} (hshows : Shows w v)
    (hown : OwnCoins cs v) : Funded cs w := by
  intro k a coin hk hcoin
  have hheld : held v k = some coin.amount := by
    rw [held, hshows.coins, hk, Option.bind_some, hcoin]
    rfl
  rw [ownCoins_iff.mp hown k, Option.map_eq_some_iff] at hheld
  obtain ⟨rec, hrec, hamount⟩ := hheld
  obtain ⟨hlookup, hkey⟩ := Option.filter_eq_some_iff.mp hrec
  exact ⟨rec, hlookup, (of_decide_eq_true hkey).trans hshows.publicKey, hamount⟩

theorem records_found {cs : MemChainstate} (h : ∀ obj ∈ objs, ∃ rec,
      cs.storage.lookup obj.key = some rec ∧ rec.pubkey = publicKey ∧ rec.amount = obj.amount) :
    ∃ recs, (objs.map InputObject.toTransactionInput).mapM
        (fun inp ↦ cs.storage.lookup inp.key) = some recs ∧
      recs.map UTXORecord.pubkey = List.replicate objs.length publicKey ∧
      recs.map UTXORecord.amount = objs.map InputObject.amount := by
  induction objs with
  | nil => exact ⟨[], rfl, rfl, rfl⟩
  | cons obj objs ih =>
    obtain ⟨rec, hrec, hkey, hamount⟩ := h obj List.mem_cons_self
    obtain ⟨recs, hrecs, hkeys, hamounts⟩ := ih fun o ho ↦ h o (List.mem_cons_of_mem obj ho)
    refine ⟨rec :: recs, ?_, ?_, ?_⟩
    · simp only [List.map_cons, List.mapM_cons, hrec, hrecs, Option.bind_eq_bind, Option.bind_some]
      rfl
    · rw [List.map_cons, hkeys, hkey, List.length_cons, List.replicate_succ]
    · rw [List.map_cons, List.map_cons, hamounts, hamount]

end Funds

section Payment

theorem newTransaction_covered (hsound : Sound publicKey secretKey w) (hlist : Lists order w)
    (hsum : amount.toNat + fee.toNat < 2 ^ 64)
    (hnew : newTransaction na order recPubKey amount fee w = .ok tx w') :
    tx.inputs.Nodup ∧ (∀ a ∈ tx.inputs, (origin w.memory a).txid.length = 32) ∧
      SignedBy na publicKey secretKey tx (origin w.memory) w'.memory ∧
      (∀ a ∈ tx.inputs, ∃ coin, w'.memory[a]? = some coin ∧ w.coins.lookup coin.key = some a) ∧
      Frame tx.inputs w.memory w'.memory ∧
      Transaction.total (tx.outputs.map TransactionOutput.amount) ≤
        Transaction.total (amountsAt w'.memory tx) := by
  by_cases hcovers : ∃ n, Covers (amountsOf w order) (amount + fee) n
  · obtain ⟨n, hsel⟩ := hcovers.elim fun _ h ↦ h.selects
    by_cases htaken : ∃ coin ∈ (coinsOf w order).take n, coin.isSigned = true
    · rw [newTransaction_signed hsound hlist na recPubKey hsel htaken] at hnew
      cases hnew
    · have hfree : ∀ coin ∈ (coinsOf w order).take n, coin.isSigned = false := fun coin hcoin ↦
        Bool.eq_false_iff.mpr fun h ↦ htaken ⟨coin, hcoin, h⟩
      obtain ⟨mem', hrun, hframe, hsigned⟩ :=
        newTransaction_paid hsound hlist na recPubKey hsel hfree
      rw [hrun] at hnew
      cases hnew
      refine ⟨(nodup_listed hsound hlist).sublist (List.take_sublist n _),
        txid_origin (unsigned_selected hsound hlist hfree),
        hsound.publicKey ▸ hsound.secretKey ▸ hsigned, fun a ha ↦ ?_, hframe, ?_⟩
      · obtain ⟨coin, hcoin, hlookup, -⟩ := coin_signed hsound hlist hsigned ha
        exact ⟨coin, hcoin, hlookup⟩
      · have hchange := toNat_changeOf hsel.1
        have hreached := hsel.1.2
        rw [UInt64.toNat_add] at hreached
        rw [amountsAt_payment hsound hlist recPubKey amount fee hframe, UInt64.le_iff_toNat_le,
          toNat_total_outputs recPubKey hsel.1, toNat_total]
        omega
  · rw [newTransaction_refused hsound hlist na recPubKey (not_exists.mp hcovers)] at hnew
    cases hnew

theorem spent_record {cs : MemChainstate} (hsound : Sound publicKey secretKey w)
    (hfunded : Funded cs w) (hframe : Frame tx.inputs w.memory w'.memory)
    (hcoins : ∀ a ∈ tx.inputs, ∃ coin, w'.memory[a]? = some coin ∧ w.coins.lookup coin.key = some a)
    (hreads : Reads w'.memory tx.inputs objs) {obj : InputObject} (hobj : obj ∈ objs) :
    ∃ rec, cs.storage.lookup obj.key = some rec ∧ rec.pubkey = publicKey ∧
      rec.amount = obj.amount := by
  obtain ⟨a, ha, hread⟩ := Results.exists_of_forall₂ hreads.flip hobj
  obtain ⟨coin, hcoin, hlookup⟩ := hcoins a ha
  rw [hread] at hcoin
  obtain rfl := Option.some.inj hcoin
  obtain ⟨before, hbefore, -⟩ := hsound.coins _ _ hlookup
  obtain ⟨rec, hrec, hkey, hamount⟩ := hfunded _ _ _ hlookup hbefore
  have hsame : (w'.memory[a]?).map InputObject.amount = (w.memory[a]?).map InputObject.amount := by
    rw [← List.getElem?_map, ← List.getElem?_map, hframe.amounts]
  rw [hread, hbefore] at hsame
  exact ⟨rec, hrec, hkey.trans hsound.publicKey, hamount.trans (Option.some.inj hsame).symm⟩

/-- What a node pays out of its wallet, it and every node with the same unspent
outputs take into their pools. -/
theorem payment_admitted (henv : env.toSodium = na.toSodium)
    (hpair : ∀ msg, na.signVerifyDetached (na.signDetached msg secretKey).toList msg publicKey =
      true)
    (hrun : Run (step na) (fun _ _ ↦ True) (.empty publicKey secretKey) w) (hlist : Lists order w)
    (hshows : Shows w s.wallet) (hown : OwnCoins s.chainstate s.wallet)
    (hsum : amount.toNat + fee.toNat < 2 ^ 64)
    (hnew : newTransaction na order recPubKey amount fee w = .ok tx w') :
    ∃ objs txid, Reads w'.memory tx.inputs objs ∧
      (plainOf objs tx.outputs).txid env.toSodium = .ok txid ∧
      Transaction.fromProto (Transaction.toProto (plainOf objs tx.outputs)) false =
        .ok (plainOf objs tx.outputs) ∧
      ∀ s' : ChainManager, s'.chainstate.storage = s.chainstate.storage →
        s'.memPool.txStorage.lookup txid = none → ∃ t pooled,
          addTx env (plainOf objs tx.outputs) s' = .ok true t ∧
            t.memPool.txStorage.lookup txid = some pooled ∧
              pooled.tx = plainOf objs tx.outputs := by
  have hsound : Sound publicKey secretKey w :=
    hrun.invariant (sound_empty publicKey secretKey) fun _ _ _ h _ ↦ sound_step h
  obtain ⟨hnd, htxid, hsigned, hcoins, hframe, hfunds⟩ :=
    newTransaction_covered hsound hlist hsum hnew
  obtain ⟨objs, hreads⟩ := exists_reads fun a ha ↦ by
    obtain ⟨coin, hcoin, -⟩ := hcoins a ha
    exact ⟨coin, hcoin⟩
  obtain ⟨hsend, txid, hid⟩ := plainOf_sendable env.toSodium hsigned hreads htxid
  rw [amountsAt_reads hreads] at hfunds
  have hvalid := plainOf_valid hpair hnd htxid (inputs_signedBy hsigned hreads) hfunds
  obtain ⟨recs, hrecs, hkeys, hamounts⟩ :=
    records_found fun obj hobj ↦
      spent_record hsound (funded_of_own hshows hown) hframe hcoins hreads hobj
  refine ⟨objs, txid, hreads, hid, Transaction.fromProto_toProto hsend, fun s' hs' hnew' ↦ ?_⟩
  have hadmits : admits env.toSodium s'.chainstate (plainOf objs tx.outputs) = true := by
    have hrecs' : (plainOf objs tx.outputs).inputs.mapM
        (fun inp ↦ s'.chainstate.storage.lookup inp.key) = some recs := by
      rw [hs']
      exact hrecs
    rw [admits, hrecs']
    simp only [hid, hkeys, hamounts, Bool.and_eq_true, decide_eq_true_eq]
    refine ⟨rfl, ?_⟩
    rw [henv, ← hreads.length_eq]
    exact hvalid
  obtain ⟨pool, pooled, hadd, htx, hstorage⟩ := addTx_new hadmits hid hnew'
  exact ⟨_, pooled, hadd, by rw [hstorage, Finmap.lookup_insert], htx⟩

end Payment

section Sample

open Accepted

def sampleNode : Env := { sampleEnv with toSodium := sampleSodium }

def receivedRecord (amount : UInt64) : UTXORecord := ⟨1, false, amount, Vector.replicate 32 0⟩

def paidNode (v : Store.Coins.Wallet) : ChainManager :=
  { sampleStart with
    chainstate := { sampleStart.chainstate with
      storage := ((∅ : UTXOMap).insert (receivedKey 0) (receivedRecord 10)).insert (receivedKey 1)
        (receivedRecord 20) }
    memPool := .empty
    wallet := v }

theorem paidNode_pool (v : Store.Coins.Wallet) (txid : Bytes) :
    (paidNode v).memPool.txStorage.lookup txid = none :=
  Finmap.lookup_empty txid

theorem paidNode_own {v : Store.Coins.Wallet} (hshows : Shows received v) :
    OwnCoins (paidNode v).chainstate v := by
  refine ownCoins_iff.mpr fun k ↦ ?_
  have hcoins : received.coins.lookup k =
      if k = receivedKey 1 then some 1 else if k = receivedKey 0 then some 0 else none := by
    rw [received, Wallet.keep, lookup_insert_ite, Wallet.keep, lookup_insert_ite]
    rfl
  have hrecs : (paidNode v).chainstate.storage.lookup k =
      if k = receivedKey 1 then some (receivedRecord 20)
      else if k = receivedKey 0 then some (receivedRecord 10) else none := by
    rw [paidNode, lookup_insert_ite, lookup_insert_ite]
    rfl
  rw [held, hshows.coins, hshows.publicKey, hcoins, hrecs]
  split_ifs <;> rfl

theorem payment_admitted_sample : ∃ v tx w' objs txid,
    newTransaction sampleSigner receivedOrder (Vector.replicate 32 1) 24 1 received = .ok tx w' ∧
      Reads w'.memory tx.inputs objs ∧ ∃ t pooled,
        addTx sampleNode (plainOf objs tx.outputs) (paidNode v) = .ok true t ∧
          t.memPool.txStorage.lookup txid = some pooled ∧ pooled.tx = plainOf objs tx.outputs := by
  have hpays : returns (newTransaction sampleSigner receivedOrder (Vector.replicate 32 1) 24 1)
      received (fun _ _ ↦ True) = true := by decide +kernel
  have hlist : Lists receivedOrder received := by decide +kernel
  obtain ⟨tx, w', hnew, -⟩ := returns_iff.mp hpays
  obtain ⟨v, -, hshows⟩ := reached_shows received_run
  have hown : OwnCoins (paidNode v).chainstate (paidNode v).wallet := paidNode_own hshows
  obtain ⟨objs, txid, hreads, -, -, hall⟩ := @payment_admitted sampleSigner sampleNode (paidNode v)
    received w' tx _ _ _ receivedOrder 24 1 rfl (fun _ ↦ rfl) received_run hlist hshows hown
    (by decide) hnew
  obtain ⟨t, pooled, hadd⟩ := hall (paidNode v) rfl (paidNode_pool v txid)
  exact ⟨v, tx, w', objs, txid, hnew, hreads, t, pooled, hadd⟩

end Sample

end FheBlockchain.Chain.Admission
