import FheBlockchain.Library.FiniteMap
import FheBlockchain.Store.Chainstate

namespace FheBlockchain.Store.ChainstateEffects

open Core.Transactions Core.Blocks Chainstate Library.FiniteMap
open Library.Execution

/-- What a transaction does to a chainstate: the outputs it creates and the
keys it spends. -/
structure Effect where
  created : List (Bytes × UTXORecord)
  consumed : List Bytes

def spendKeys (keys : List Bytes) (cs : MemChainstate) : MemChainstate :=
  keys.foldl (fun cs key ↦ (cs.removeUtxo key true).1) cs

def Effect.apply (e : Effect) (cs : MemChainstate) : MemChainstate :=
  spendKeys e.consumed (addUtxos e.created cs)

def applyAll (es : List Effect) (cs : MemChainstate) : MemChainstate :=
  es.foldl (fun cs e ↦ e.apply cs) cs

def createdBy (es : List Effect) : List (Bytes × UTXORecord) := es.flatMap Effect.created

def consumedBy (es : List Effect) : List Bytes := es.flatMap Effect.consumed

variable (na : Sodium)

def txEffect (height : UInt32) (tx : Bool × Transaction) : Effect where
  created := outputsOf ((txidForOutputs na tx.2).toOption.getD []) height tx.1 0 tx.2.outputs
  consumed := if tx.1 then [] else tx.2.inputs.map TransactionInput.key

def blockEffects (block : Block) (height : UInt32) : List Effect :=
  (flagged block.transactions).map (txEffect na height)

section Lookups

variable {cs : MemChainstate}

theorem addUtxo_lookup (k x : Bytes) (rec : UTXORecord) :
    (cs.addUtxo k rec).1.storage.lookup x =
      if x = k then (cs.storage.lookup k).or (some rec) else cs.storage.lookup x := by
  rw [MemChainstate.addUtxo]
  cases h : cs.storage.lookup k with
  | none => simp [lookup_insert_ite]
  | some r =>
    simp only [Option.isSome_some, if_true, Option.some_or]
    split_ifs with hx
    · rw [hx, h]
    · rfl

theorem addUtxo_spentSet (k : Bytes) (rec : UTXORecord) :
    (cs.addUtxo k rec).1.spentSet = cs.spentSet := by
  rw [MemChainstate.addUtxo]
  split_ifs <;> rfl

theorem addUtxos_lookup_of_some {outs : List (Bytes × UTXORecord)} {k : Bytes} {rec : UTXORecord}
    (h : cs.storage.lookup k = some rec) : (addUtxos outs cs).storage.lookup k = some rec := by
  induction outs generalizing cs with
  | nil => exact h
  | cons out outs ih =>
    refine ih ?_
    rw [addUtxo_lookup]
    split_ifs with hk
    · rw [← hk, h, Option.some_or]
    · exact h

theorem addSpentUtxo_storage (k : Bytes) (rec : UTXORecord) :
    (cs.addSpentUtxo k rec).storage = cs.storage := by
  rw [MemChainstate.addSpentUtxo]
  split_ifs <;> rfl

theorem removeUtxo_of_none {k : Bytes} (save : Bool) (h : cs.storage.lookup k = none) :
    cs.removeUtxo k save = (cs, false) := by
  rw [MemChainstate.removeUtxo, h]

theorem removeUtxo_of_some {k : Bytes} {rec : UTXORecord} (save : Bool)
    (h : cs.storage.lookup k = some rec) :
    cs.removeUtxo k save =
      (if save then ({ cs with storage := cs.storage.erase k } : MemChainstate).addSpentUtxo k rec
        else { cs with storage := cs.storage.erase k }, true) := by
  rw [MemChainstate.removeUtxo, h]

theorem removeUtxo_lookup (k x : Bytes) (save : Bool) :
    (cs.removeUtxo k save).1.storage.lookup x = if x = k then none else cs.storage.lookup x := by
  cases h : cs.storage.lookup k with
  | none =>
    rw [removeUtxo_of_none save h]
    split_ifs with hx
    · rw [hx, h]
    · rfl
  | some rec =>
    rw [removeUtxo_of_some save h, ← lookup_erase_ite]
    cases save <;> simp [addSpentUtxo_storage]

theorem spendKeys_lookup_of_notMem {keys : List Bytes} {k : Bytes} (h : k ∉ keys) :
    (spendKeys keys cs).storage.lookup k = cs.storage.lookup k := by
  induction keys generalizing cs with
  | nil => rfl
  | cons key keys ih =>
    rw [List.mem_cons, not_or] at h
    exact (ih h.2).trans (by rw [removeUtxo_lookup, if_neg h.1])

theorem Effect.apply_lookup_of_some {e : Effect} {k : Bytes} {rec : UTXORecord}
    (h : cs.storage.lookup k = some rec) (hk : k ∉ e.consumed) :
    (e.apply cs).storage.lookup k = some rec :=
  (spendKeys_lookup_of_notMem hk).trans (addUtxos_lookup_of_some h)

theorem applyAll_lookup_of_some {es : List Effect} {k : Bytes} {rec : UTXORecord}
    (h : cs.storage.lookup k = some rec) (hk : k ∉ consumedBy es) :
    (applyAll es cs).storage.lookup k = some rec := by
  induction es generalizing cs with
  | nil => exact h
  | cons e es ih =>
    rw [consumedBy, List.flatMap_cons, List.mem_append, not_or] at hk
    exact ih (Effect.apply_lookup_of_some h hk.1) hk.2

end Lookups

theorem mem_of_mem_flagged {txs : List Transaction} {tx : Bool × Transaction}
    (h : tx ∈ flagged txs) : tx.2 ∈ txs := by
  cases txs with
  | nil => simp [flagged] at h
  | cons cb txs =>
    simp only [flagged, List.mem_cons, List.mem_map] at h ⊢
    rcases h with rfl | ⟨t, ht, rfl⟩
    · exact .inl rfl
    · exact .inr ht

section Runs

variable {cs : MemChainstate}

theorem spendInput_run {inp : TransactionInput} {rec : UTXORecord}
    (h : cs.storage.lookup inp.key = some rec) :
    spendInput inp cs = .ok () (cs.removeUtxo inp.key true).1 := by
  rw [spendInput, run_bind_get, removeUtxo_of_some true h]
  rfl

theorem spendInputs_run {inputs : List TransactionInput}
    (hnd : (inputs.map TransactionInput.key).Nodup)
    (h : ∀ inp ∈ inputs, ∃ rec, cs.storage.lookup inp.key = some rec) :
    inputs.forM spendInput cs = .ok () (spendKeys (inputs.map TransactionInput.key) cs) := by
  rw [spendKeys, List.foldl_map]
  refine forM_ok (P := fun inputs cs ↦ (inputs.map TransactionInput.key).Nodup ∧
    ∀ inp ∈ inputs, ∃ rec, cs.storage.lookup inp.key = some rec) ?_ ⟨hnd, h⟩
  rintro inp inputs cs ⟨hnd, h⟩
  rw [List.map_cons, List.nodup_cons] at hnd
  obtain ⟨rec, hrec⟩ := h inp (by simp)
  refine ⟨spendInput_run hrec, hnd.2, fun i hi ↦ ?_⟩
  have hne : i.key ≠ inp.key := fun he ↦ hnd.1 (he ▸ List.mem_map_of_mem hi)
  rw [removeUtxo_lookup, if_neg hne]
  exact h i (by simp [hi])

def Spendable (cs : MemChainstate) (es : List Effect) : Prop :=
  (consumedBy es).Nodup ∧ ∀ k ∈ consumedBy es, ∃ rec, cs.storage.lookup k = some rec

theorem Spendable.tail {e : Effect} {es : List Effect} (h : Spendable cs (e :: es)) :
    Spendable (e.apply cs) es := by
  obtain ⟨hnd, hrec⟩ := h
  rw [consumedBy, List.flatMap_cons, List.nodup_append] at hnd
  refine ⟨hnd.2.1, fun k hk ↦ ?_⟩
  obtain ⟨rec, hk'⟩ := hrec k (by simp only [consumedBy, List.flatMap_cons, List.mem_append]; exact .inr hk)
  exact ⟨rec, Effect.apply_lookup_of_some hk' fun hc ↦ hnd.2.2 k hc k hk rfl⟩

theorem Spendable.head {e : Effect} {es : List Effect} (h : Spendable cs (e :: es)) :
    e.consumed.Nodup ∧ ∀ k ∈ e.consumed, ∃ rec, cs.storage.lookup k = some rec := by
  obtain ⟨hnd, hrec⟩ := h
  rw [consumedBy, List.flatMap_cons] at hnd
  exact ⟨hnd.of_append_left, fun k hk ↦ hrec k (by simp [consumedBy, hk])⟩

theorem addTx_run {height : UInt32} {tx : Bool × Transaction} {txid : Bytes}
    (hid : txidForOutputs na tx.2 = .ok txid) (hnd : (txEffect na height tx).consumed.Nodup)
    (h : ∀ k ∈ (txEffect na height tx).consumed, ∃ rec, cs.storage.lookup k = some rec) :
    addTx na height tx cs = .ok () ((txEffect na height tx).apply cs) := by
  obtain ⟨isCb, tx⟩ := tx
  have houts : (txEffect na height (isCb, tx)).created = outputsOf txid height isCb 0 tx.outputs := by
    simp [txEffect, hid, Except.toOption]
  have hstart : addTx na height (isCb, tx) cs =
      (if isCb then pure () else tx.inputs.forM spendInput : M Unit)
        (addUtxos (outputsOf txid height isCb 0 tx.outputs) cs) := by
    simp only [addTx, hid]
    rfl
  rw [hstart, Effect.apply, houts]
  cases isCb with
  | true => rfl
  | false =>
    refine spendInputs_run hnd fun inp hinp ↦ ?_
    obtain ⟨rec, hrec⟩ := h inp.key (List.mem_map_of_mem hinp)
    exact ⟨rec, addUtxos_lookup_of_some hrec⟩

theorem Spendable.of_append {es es' : List Effect} (h : Spendable cs (es ++ es')) :
    Spendable cs es ∧ Spendable (applyAll es cs) es' := by
  induction es generalizing cs with
  | nil => exact ⟨⟨List.nodup_nil, by simp [consumedBy]⟩, h⟩
  | cons e es ih =>
    refine ⟨⟨?_, fun k hk ↦ h.2 k ?_⟩, (ih h.tail).2⟩
    · have hnd := h.1
      rw [consumedBy, List.flatMap_append] at hnd
      exact hnd.of_append_left
    · rw [consumedBy, List.flatMap_append]
      exact List.mem_append_left _ hk

theorem addTxs_run {txs : List (Bool × Transaction)} {height : UInt32}
    (hid : ∀ tx ∈ txs, ∃ txid, txidForOutputs na tx.2 = .ok txid)
    (h : Spendable cs (txs.map (txEffect na height))) :
    txs.forM (addTx na height) cs = .ok () (applyAll (txs.map (txEffect na height)) cs) := by
  rw [applyAll, List.foldl_map]
  refine forM_ok (P := fun txs cs ↦ (∀ tx ∈ txs, ∃ txid, txidForOutputs na tx.2 = .ok txid) ∧
    Spendable cs (txs.map (txEffect na height))) ?_ ⟨hid, h⟩
  rintro tx txs cs ⟨hid, h⟩
  obtain ⟨txid, htxid⟩ := hid tx (by simp)
  exact ⟨addTx_run na htxid h.head.1 h.head.2, fun t ht ↦ hid t (by simp [ht]), h.tail⟩

/-- A block whose identifiers can be computed and whose inputs are all there
does to a chainstate what its effects say. -/
theorem addBlock_run {block : Block} {height : UInt32}
    (hid : ∀ tx ∈ block.transactions, ∃ txid, txidForOutputs na tx = .ok txid)
    (h : Spendable cs (blockEffects na block height)) :
    addBlock na block height cs = .ok () (applyAll (blockEffects na block height) cs) :=
  addTxs_run na (fun tx htx ↦ hid tx.2 (mem_of_mem_flagged htx)) h

end Runs

section Amounts

variable (f : UTXORecord → ℕ) {cs : MemChainstate}

def amountOf (rec : UTXORecord) : ℕ := rec.amount.toNat

theorem total_addUtxos (outs : List (Bytes × UTXORecord)) (cs : MemChainstate) :
    total f (addUtxos outs cs).storage ≤ total f cs.storage + (outs.map fun out ↦ f out.2).sum := by
  induction outs generalizing cs with
  | nil => simp [addUtxos]
  | cons out outs ih =>
    have hstep : total f (cs.addUtxo out.1 out.2).1.storage ≤ total f cs.storage + f out.2 := by
      rw [MemChainstate.addUtxo]
      split_ifs with h
      · exact Nat.le_add_right _ _
      · rw [total_insert]
        simpa [Finmap.lookup_isSome] using h
    have := ih (cs.addUtxo out.1 out.2).1
    rw [List.map_cons, List.sum_cons]
    simp only [addUtxos, List.foldl_cons] at this ⊢
    omega

theorem total_removeUtxo {k : Bytes} {rec : UTXORecord} (h : cs.storage.lookup k = some rec) :
    total f (cs.removeUtxo k true).1.storage + f rec = total f cs.storage := by
  rw [removeUtxo_of_some true h, if_pos rfl, addSpentUtxo_storage, total_erase f h]

def valueAt (cs : MemChainstate) (keys : List Bytes) : ℕ :=
  (keys.map fun k ↦ (cs.storage.lookup k).elim 0 f).sum

theorem total_spendKeys {keys : List Bytes} (hnd : keys.Nodup)
    (h : ∀ k ∈ keys, ∃ rec, cs.storage.lookup k = some rec) :
    total f (spendKeys keys cs).storage + valueAt f cs keys = total f cs.storage := by
  induction keys generalizing cs with
  | nil => simp [spendKeys, valueAt]
  | cons k keys ih =>
    rw [List.nodup_cons] at hnd
    obtain ⟨rec, hrec⟩ := h k (by simp)
    have hlook (k' : Bytes) (hk' : k' ∈ keys) :
        (cs.removeUtxo k true).1.storage.lookup k' = cs.storage.lookup k' := by
      rw [removeUtxo_lookup, if_neg (by rintro rfl; exact hnd.1 hk')]
    have hval : valueAt f (cs.removeUtxo k true).1 keys = valueAt f cs keys := by
      rw [valueAt, valueAt]
      exact congrArg _ (List.map_congr_left fun k' hk' ↦ by rw [hlook k' hk'])
    have hrest := @ih (cs.removeUtxo k true).1 hnd.2 fun k' hk' ↦ by
      rw [hlook k' hk']
      exact h k' (by simp [hk'])
    have hrm := total_removeUtxo f hrec
    rw [hval] at hrest
    simp only [spendKeys, List.foldl_cons, valueAt, List.map_cons, List.sum_cons, hrec,
      Option.elim_some] at hrest ⊢
    omega

theorem valueAt_congr {cs' : MemChainstate} {keys : List Bytes}
    (h : ∀ k ∈ keys, cs'.storage.lookup k = cs.storage.lookup k) :
    valueAt f cs' keys = valueAt f cs keys :=
  congrArg List.sum (List.map_congr_left fun k hk ↦ by rw [h k hk])

theorem total_apply {e : Effect} (hnd : e.consumed.Nodup)
    (h : ∀ k ∈ e.consumed, ∃ rec, cs.storage.lookup k = some rec) :
    total f (e.apply cs).storage + valueAt f cs e.consumed ≤
      total f cs.storage + (e.created.map fun out ↦ f out.2).sum := by
  have hsame (k : Bytes) (hk : k ∈ e.consumed) :
      (addUtxos e.created cs).storage.lookup k = cs.storage.lookup k := by
    obtain ⟨rec, hrec⟩ := h k hk
    rw [addUtxos_lookup_of_some hrec, hrec]
  have hspend := total_spendKeys f hnd fun k hk ↦ (hsame k hk).symm ▸ h k hk
  rw [valueAt_congr f hsame] at hspend
  exact hspend.trans_le (total_addUtxos f e.created cs)

theorem total_applyAll {es : List Effect} (h : Spendable cs es) :
    total f (applyAll es cs).storage + valueAt f cs (consumedBy es) ≤
      total f cs.storage + ((createdBy es).map fun out ↦ f out.2).sum := by
  induction es generalizing cs with
  | nil => simp [applyAll, valueAt, consumedBy]
  | cons e es ih =>
    have hhead := total_apply f h.head.1 h.head.2
    have hsame (k : Bytes) (hk : k ∈ consumedBy es) :
        (e.apply cs).storage.lookup k = cs.storage.lookup k := by
      obtain ⟨rec, hrec⟩ := h.2 k (by simp only [consumedBy, List.flatMap_cons, List.mem_append]; exact .inr hk)
      have hnd := h.1
      rw [consumedBy, List.flatMap_cons, List.nodup_append] at hnd
      rw [Effect.apply_lookup_of_some hrec fun hc ↦ hnd.2.2 k hc k hk rfl, hrec]
    have htail := ih h.tail
    rw [valueAt_congr f hsame] at htail
    have hval : valueAt f cs (consumedBy (e :: es)) =
        valueAt f cs e.consumed + valueAt f cs (consumedBy es) := by
      simp [valueAt, consumedBy]
    have hout : ((createdBy (e :: es)).map fun out ↦ f out.2).sum =
        (e.created.map fun out ↦ f out.2).sum + ((createdBy es).map fun out ↦ f out.2).sum := by
      simp [createdBy]
    rw [hval, hout]
    simp only [applyAll, List.foldl_cons] at htail ⊢
    omega

end Amounts

end FheBlockchain.Store.ChainstateEffects
