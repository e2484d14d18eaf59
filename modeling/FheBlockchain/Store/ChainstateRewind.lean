import FheBlockchain.Store.ChainstateEffects

namespace FheBlockchain.Store.ChainstateRewind

open Core.Transactions Core.Blocks Chainstate ChainstateEffects Library.FiniteMap
open Library.Execution

variable {cs : MemChainstate}

def createdKeys (es : List Effect) : List Bytes := (createdBy es).map Prod.fst

theorem createdKeys_cons (e : Effect) (es : List Effect) :
    createdKeys (e :: es) = e.created.map Prod.fst ++ createdKeys es := by
  simp [createdKeys, createdBy]

theorem consumedBy_cons (e : Effect) (es : List Effect) :
    consumedBy (e :: es) = e.consumed ++ consumedBy es := by
  simp [consumedBy]

theorem addUtxos_lookup_of_notMem {outs : List (Bytes × UTXORecord)} {k : Bytes}
    (h : k ∉ outs.map Prod.fst) : (addUtxos outs cs).storage.lookup k = cs.storage.lookup k := by
  induction outs generalizing cs with
  | nil => rfl
  | cons out outs ih =>
    rw [List.map_cons, List.mem_cons, not_or] at h
    exact (ih h.2).trans (by rw [addUtxo_lookup, if_neg h.1])

theorem addUtxos_spentSet (outs : List (Bytes × UTXORecord)) :
    (addUtxos outs cs).spentSet = cs.spentSet := by
  induction outs generalizing cs with
  | nil => rfl
  | cons out outs ih => exact ih.trans (addUtxo_spentSet out.1 out.2)

theorem removeUtxo_spent_lookup {k : Bytes} {rec : UTXORecord} (x : Bytes)
    (h : cs.storage.lookup k = some rec) (hs : cs.spentSet.lookup k = none) :
    (cs.removeUtxo k true).1.spentSet.lookup x =
      if x = k then some rec else cs.spentSet.lookup x := by
  rw [removeUtxo_of_some true h, if_pos rfl]
  simp [MemChainstate.addSpentUtxo, hs, lookup_insert_ite]

theorem spendKeys_lookups {keys : List Bytes} (hnd : keys.Nodup)
    (h : ∀ k ∈ keys, (∃ rec, cs.storage.lookup k = some rec) ∧ cs.spentSet.lookup k = none)
    (x : Bytes) :
    (spendKeys keys cs).storage.lookup x = (if x ∈ keys then none else cs.storage.lookup x) ∧
    (spendKeys keys cs).spentSet.lookup x =
      (if x ∈ keys then cs.storage.lookup x else cs.spentSet.lookup x) := by
  induction keys generalizing cs with
  | nil => simp [spendKeys]
  | cons k keys ih =>
    rw [List.nodup_cons] at hnd
    obtain ⟨⟨rec, hrec⟩, hspent⟩ := h k (by simp)
    have hne {k' : Bytes} (hk' : k' ∈ keys) : k' ≠ k := by
      rintro rfl
      exact hnd.1 hk'
    have hrest := @ih (cs.removeUtxo k true).1 hnd.2 fun k' hk' ↦ by
      rw [removeUtxo_lookup, removeUtxo_spent_lookup _ hrec hspent, if_neg (hne hk'),
        if_neg (hne hk')]
      exact h k' (by simp [hk'])
    rw [removeUtxo_lookup, removeUtxo_spent_lookup _ hrec hspent] at hrest
    by_cases hx : x = k
    · subst hx
      simpa [spendKeys, hnd.1, hrec] using hrest
    · simpa [spendKeys, hx] using hrest

/-- Nothing that a list of effects creates is there already, and nothing that it
consumes has been spent before. -/
structure Fresh (cs : MemChainstate) (es : List Effect) : Prop where
  spendable : Spendable cs es
  created : ∀ k ∈ createdKeys es, cs.storage.lookup k = none
  consumed : ∀ k ∈ consumedBy es, cs.spentSet.lookup k = none

theorem Fresh.notMem {es : List Effect} (h : Fresh cs es) {k : Bytes} (hk : k ∈ consumedBy es) :
    k ∉ createdKeys es := by
  intro hc
  obtain ⟨rec, hrec⟩ := h.spendable.2 k hk
  rw [h.created k hc] at hrec
  contradiction

structure Applied (cs cs' : MemChainstate) (es : List Effect) : Prop where
  unspent : ∀ k, k ∉ createdKeys es →
    cs'.storage.lookup k = if k ∈ consumedBy es then none else cs.storage.lookup k
  spent : ∀ k, cs'.spentSet.lookup k =
    if k ∈ consumedBy es then cs.storage.lookup k else cs.spentSet.lookup k

theorem Effect.apply_lookups {e : Effect} {es : List Effect} (h : Fresh cs (e :: es)) (x : Bytes) :
    (x ∉ e.created.map Prod.fst → (e.apply cs).storage.lookup x =
      if x ∈ e.consumed then none else cs.storage.lookup x) ∧
    (e.apply cs).spentSet.lookup x =
      (if x ∈ e.consumed then cs.storage.lookup x else cs.spentSet.lookup x) := by
  have hkeep {k : Bytes} (hk : k ∈ e.consumed) :
      (addUtxos e.created cs).storage.lookup k = cs.storage.lookup k := by
    obtain ⟨rec, hrec⟩ := h.spendable.head.2 k hk
    rw [addUtxos_lookup_of_some hrec, hrec]
  have hspend := @spendKeys_lookups (addUtxos e.created cs) _ h.spendable.head.1
    (fun k hk ↦ ⟨hkeep hk ▸ h.spendable.head.2 k hk, by
      rw [addUtxos_spentSet]
      exact h.consumed k (by simp [consumedBy_cons, hk])⟩) x
  refine ⟨fun hx ↦ ?_, ?_⟩
  · rw [Effect.apply, hspend.1, addUtxos_lookup_of_notMem hx]
  · rw [Effect.apply, hspend.2, addUtxos_spentSet]
    split_ifs with hk
    · exact hkeep hk
    · rfl

theorem Fresh.tail {e : Effect} {es : List Effect} (h : Fresh cs (e :: es))
    (hnd : (createdKeys (e :: es)).Nodup) : Fresh (e.apply cs) es := by
  have hnc := h.spendable.1
  rw [consumedBy_cons, List.nodup_append] at hnc
  rw [createdKeys_cons, List.nodup_append] at hnd
  refine ⟨h.spendable.tail, fun k hk ↦ ?_, fun k hk ↦ ?_⟩
  · rw [(Effect.apply_lookups h k).1 fun hc ↦ hnd.2.2 k hc k hk rfl]
    split_ifs
    · rfl
    · exact h.created k (by simp [createdKeys_cons, hk])
  · rw [(Effect.apply_lookups h k).2, if_neg fun hc ↦ hnc.2.2 k hc k hk rfl]
    exact h.consumed k (by simp [consumedBy_cons, hk])

theorem applyAll_applied {es : List Effect} (h : Fresh cs es) (hnd : (createdKeys es).Nodup) :
    Applied cs (applyAll es cs) es := by
  induction es generalizing cs with
  | nil => exact ⟨fun k _ ↦ by simp [applyAll, consumedBy], fun k ↦ by simp [applyAll, consumedBy]⟩
  | cons e es ih =>
    have hrest := ih (h.tail hnd) (by rw [createdKeys_cons] at hnd; exact hnd.of_append_right)
    refine ⟨fun k hk ↦ ?_, fun k ↦ ?_⟩
    · rw [createdKeys_cons, List.mem_append, not_or] at hk
      have := hrest.unspent k hk.2
      rw [(Effect.apply_lookups h k).1 hk.1] at this
      simp only [consumedBy_cons, List.mem_append]
      refine this.trans ?_
      by_cases h₁ : k ∈ consumedBy es <;> by_cases h₂ : k ∈ e.consumed <;> simp [h₁, h₂]
    · have hspent := hrest.spent k
      rw [(Effect.apply_lookups h k).2] at hspent
      simp only [consumedBy_cons, List.mem_append]
      refine hspent.trans ?_
      by_cases h₁ : k ∈ consumedBy es
      · have hnd' := h.spendable.1
        rw [consumedBy_cons, List.nodup_append] at hnd'
        have hc : k ∉ e.consumed := fun hc ↦ hnd'.2.2 k hc k h₁ rfl
        have hcr : k ∉ e.created.map Prod.fst := fun hc ↦
          h.notMem (k := k) (by simp [consumedBy_cons, h₁]) (by simp [createdKeys_cons, hc])
        simp [h₁, (Effect.apply_lookups h k).1 hcr, hc]
      · simp [h₁]

theorem addUtxos_lookup_of_mem {outs : List (Bytes × UTXORecord)} {out : Bytes × UTXORecord}
    (hnd : (outs.map Prod.fst).Nodup) (hmem : out ∈ outs)
    (hnone : cs.storage.lookup out.1 = none) :
    (addUtxos outs cs).storage.lookup out.1 = some out.2 := by
  induction outs generalizing cs with
  | nil => simp at hmem
  | cons first outs ih =>
    rw [List.map_cons, List.nodup_cons] at hnd
    rcases List.mem_cons.mp hmem with rfl | hmem
    · refine (addUtxos_lookup_of_notMem hnd.1).trans ?_
      rw [addUtxo_lookup, if_pos rfl, hnone, Option.none_or]
    · refine ih hnd.2 hmem ?_
      have hne : out.1 ≠ first.1 := fun he ↦ hnd.1 (he ▸ List.mem_map_of_mem hmem)
      rw [addUtxo_lookup, if_neg hne, hnone]

theorem applyAll_created {es : List Effect} (h : Fresh cs es) (hnd : (createdKeys es).Nodup)
    {out : Bytes × UTXORecord} (hmem : out ∈ createdBy es) :
    (applyAll es cs).storage.lookup out.1 = some out.2 := by
  induction es generalizing cs with
  | nil => simp [createdBy] at hmem
  | cons e es ih =>
    have htail := h.tail hnd
    have hnd' := hnd
    rw [createdKeys_cons, List.nodup_append] at hnd'
    rcases List.mem_append.mp hmem with hmem | hmem
    · have hkey : out.1 ∈ e.created.map Prod.fst := List.mem_map_of_mem hmem
      have hcreated : out.1 ∈ createdKeys (e :: es) := by simp [createdKeys_cons, hkey]
      have hkept : out.1 ∉ consumedBy (e :: es) := fun hc ↦ h.notMem hc hcreated
      rw [consumedBy_cons, List.mem_append, not_or] at hkept
      have hlater : out.1 ∉ createdKeys es := fun hk ↦ hnd'.2.2 _ hkey _ hk rfl
      refine ((applyAll_applied htail hnd'.2.1).unspent _ hlater).trans ?_
      rw [if_neg hkept.2, Effect.apply, spendKeys_lookup_of_notMem hkept.1]
      exact addUtxos_lookup_of_mem hnd'.1 hmem (h.created _ hcreated)
    · exact ih htail hnd'.2.1 hmem

def unspendKeys (keys : List Bytes) (cs : MemChainstate) : MemChainstate :=
  keys.foldl (fun cs k ↦ match cs.spentSet.lookup k with
    | none => cs
    | some rec => (cs.addUtxo k rec).1.removeSpentUtxo k) cs

def Effect.undo (e : Effect) (cs : MemChainstate) : MemChainstate :=
  unspendKeys e.consumed (removeUtxos (e.created.map Prod.fst) cs)

def undoAll (es : List Effect) (cs : MemChainstate) : MemChainstate :=
  es.foldl (fun cs e ↦ Effect.undo e cs) cs

theorem removeUtxos_lookups (keys : List Bytes) (x : Bytes) :
    (removeUtxos keys cs).storage.lookup x =
      (if x ∈ keys then none else cs.storage.lookup x) ∧
    (removeUtxos keys cs).spentSet = cs.spentSet := by
  induction keys generalizing cs with
  | nil => simp [removeUtxos]
  | cons k keys ih =>
    have hspent : (cs.removeUtxo k false).1.spentSet = cs.spentSet := by
      rw [MemChainstate.removeUtxo]
      cases cs.storage.lookup k <;> rfl
    obtain ⟨h₁, h₂⟩ := @ih (cs.removeUtxo k false).1
    refine ⟨h₁.trans ?_, h₂.trans hspent⟩
    rw [removeUtxo_lookup]
    by_cases hk : x = k <;> by_cases hx : x ∈ keys <;> simp [hk, hx]

def Undoable (cs : MemChainstate) (keys : List Bytes) : Prop :=
  keys.Nodup ∧ ∀ k ∈ keys, (∃ rec, cs.spentSet.lookup k = some rec) ∧ cs.storage.lookup k = none

theorem unspend_lookups {k : Bytes} {rec : UTXORecord} (h : cs.storage.lookup k = none)
    (x : Bytes) :
    ((cs.addUtxo k rec).1.removeSpentUtxo k).storage.lookup x =
      (if x = k then some rec else cs.storage.lookup x) ∧
    ((cs.addUtxo k rec).1.removeSpentUtxo k).spentSet.lookup x =
      (if x = k then none else cs.spentSet.lookup x) := by
  constructor
  · simp [MemChainstate.removeSpentUtxo, addUtxo_lookup, h]
  · simp [MemChainstate.removeSpentUtxo, addUtxo_spentSet, lookup_erase_ite]

theorem Undoable.tail {k : Bytes} {keys : List Bytes} {rec : UTXORecord}
    (h : Undoable cs (k :: keys)) :
    Undoable ((cs.addUtxo k rec).1.removeSpentUtxo k) keys := by
  have hnd := List.nodup_cons.mp h.1
  refine ⟨hnd.2, fun k' hk' ↦ ?_⟩
  have hne : k' ≠ k := by
    rintro rfl
    exact hnd.1 hk'
  have hlook := @unspend_lookups cs k rec (h.2 k (by simp)).2 k'
  rw [hlook.1, hlook.2, if_neg hne, if_neg hne]
  exact h.2 k' (by simp [hk'])

theorem unspendKeys_lookups {keys : List Bytes} (h : Undoable cs keys) (x : Bytes) :
    (unspendKeys keys cs).storage.lookup x =
      (if x ∈ keys then cs.spentSet.lookup x else cs.storage.lookup x) ∧
    (unspendKeys keys cs).spentSet.lookup x =
      (if x ∈ keys then none else cs.spentSet.lookup x) := by
  induction keys generalizing cs with
  | nil => simp [unspendKeys]
  | cons k keys ih =>
    obtain ⟨⟨rec, hrec⟩, hnone⟩ := h.2 k (by simp)
    have hrest := @ih _ (@Undoable.tail cs k keys rec h)
    rw [(unspend_lookups hnone x).1, (unspend_lookups hnone x).2] at hrest
    have hnd := List.nodup_cons.mp h.1
    simp only [unspendKeys, List.foldl_cons, hrec] at hrest ⊢
    by_cases hx : x = k
    · subst hx
      simpa [hnd.1, hrec] using hrest
    · simpa [hx] using hrest

structure Rewindable (cs : MemChainstate) (es : List Effect) : Prop where
  undoable : Undoable cs (consumedBy es)
  disjoint : ∀ k ∈ consumedBy es, k ∉ createdKeys es

theorem Rewindable.head {e : Effect} {es : List Effect} (h : Rewindable cs (e :: es)) :
    Undoable (removeUtxos (e.created.map Prod.fst) cs) e.consumed := by
  have hnd := h.undoable.1
  rw [consumedBy_cons, List.nodup_append] at hnd
  refine ⟨hnd.1, fun k hk ↦ ?_⟩
  obtain ⟨hrec, hnone⟩ := h.undoable.2 k (by simp [consumedBy_cons, hk])
  rw [(removeUtxos_lookups _ k).2, (removeUtxos_lookups _ k).1, hnone]
  exact ⟨hrec, ite_self _⟩

theorem Effect.undo_lookups {e : Effect} {es : List Effect} (h : Rewindable cs (e :: es))
    (x : Bytes) :
    (Effect.undo e cs).storage.lookup x = (if x ∈ e.consumed then cs.spentSet.lookup x
      else if x ∈ e.created.map Prod.fst then none else cs.storage.lookup x) ∧
    (Effect.undo e cs).spentSet.lookup x =
      (if x ∈ e.consumed then none else cs.spentSet.lookup x) := by
  have hlook := unspendKeys_lookups h.head x
  rwa [(removeUtxos_lookups _ x).2, (removeUtxos_lookups _ x).1] at hlook

theorem Rewindable.tail {e : Effect} {es : List Effect} (h : Rewindable cs (e :: es)) :
    Rewindable (Effect.undo e cs) es := by
  have hnd := h.undoable.1
  rw [consumedBy_cons, List.nodup_append] at hnd
  refine ⟨⟨hnd.2.1, fun k hk ↦ ?_⟩, fun k hk hc ↦ ?_⟩
  · obtain ⟨hrec, hnone⟩ := h.undoable.2 k (by simp [consumedBy_cons, hk])
    have hk' : k ∉ e.consumed := fun hc ↦ hnd.2.2 k hc k hk rfl
    rw [(Effect.undo_lookups h k).1, (Effect.undo_lookups h k).2, if_neg hk', if_neg hk', hnone]
    exact ⟨hrec, ite_self _⟩
  · exact h.disjoint k (by simp [consumedBy_cons, hk]) (by simp [createdKeys_cons, hc])

theorem undoAll_lookups {es : List Effect} (h : Rewindable cs es) (x : Bytes) :
    (undoAll es cs).storage.lookup x = (if x ∈ consumedBy es then cs.spentSet.lookup x
      else if x ∈ createdKeys es then none else cs.storage.lookup x) ∧
    (undoAll es cs).spentSet.lookup x =
      (if x ∈ consumedBy es then none else cs.spentSet.lookup x) := by
  induction es generalizing cs with
  | nil => simp [undoAll, consumedBy, createdKeys, createdBy]
  | cons e es ih =>
    have hrest := ih h.tail
    rw [(Effect.undo_lookups h x).1, (Effect.undo_lookups h x).2] at hrest
    simp only [undoAll, List.foldl_cons, consumedBy_cons, createdKeys_cons, List.mem_append]
      at hrest ⊢
    by_cases h₁ : x ∈ consumedBy es
    · have hnd := h.undoable.1
      rw [consumedBy_cons, List.nodup_append] at hnd
      have hc : x ∉ e.consumed := fun hc ↦ hnd.2.2 x hc x h₁ rfl
      simpa [h₁, hc] using hrest
    · by_cases h₂ : x ∈ e.consumed
      · have hcr : x ∉ createdKeys es := fun hc ↦
          h.disjoint x (by simp [consumedBy_cons, h₂]) (by simp [createdKeys_cons, hc])
        simpa [h₁, h₂, hcr] using hrest
      · refine ⟨hrest.1.trans ?_, hrest.2.trans (by simp [h₁, h₂])⟩
        by_cases h₃ : x ∈ createdKeys es
        · simp [h₁, h₂, h₃]
        · simp only [h₁, h₂, h₃, if_false, or_false]

/-- Undoing a list of effects gives back the chainstate from before. -/
theorem undoAll_applyAll {es : List Effect} (h : Fresh cs es) (hnd : (createdKeys es).Nodup) :
    Rewindable (applyAll es cs) es ∧ undoAll es (applyAll es cs) = cs := by
  have happ := applyAll_applied h hnd
  have hrew : Rewindable (applyAll es cs) es := by
    refine ⟨⟨h.spendable.1, fun k hk ↦ ?_⟩, fun k hk ↦ h.notMem hk⟩
    rw [happ.spent, happ.unspent k (h.notMem hk), if_pos hk, if_pos hk]
    exact ⟨h.spendable.2 k hk, rfl⟩
  refine ⟨hrew, ?_⟩
  have hstorage : (undoAll es (applyAll es cs)).storage = cs.storage := by
    refine Finmap.ext_lookup fun k ↦ ?_
    rw [(undoAll_lookups hrew k).1, happ.spent]
    split_ifs with h₁ h₂
    · rfl
    · exact (h.created k h₂).symm
    · rw [happ.unspent k h₂, if_neg h₁]
  have hspent : (undoAll es (applyAll es cs)).spentSet = cs.spentSet := by
    refine Finmap.ext_lookup fun k ↦ ?_
    rw [(undoAll_lookups hrew k).2, happ.spent]
    split_ifs with h₁
    · exact (h.consumed k h₁).symm
    · rfl
  cases hu : undoAll es (applyAll es cs)
  rw [hu] at hstorage hspent
  cases cs
  simp_all

variable (na : Sodium)

theorem outputsOf_keys (txid : Bytes) (h h' : UInt32) (isCb : Bool) (vout : ℕ)
    (outputs : List TransactionOutput) :
    (outputsOf txid h isCb vout outputs).map Prod.fst =
      (outputsOf txid h' isCb vout outputs).map Prod.fst := by
  induction outputs generalizing vout with
  | nil => rfl
  | cons outp outputs ih => simp [outputsOf, ih]

theorem unspendInputs_run {inputs : List TransactionInput}
    (h : Undoable cs (inputs.map TransactionInput.key)) :
    inputs.forM unspendInput cs = .ok () (unspendKeys (inputs.map TransactionInput.key) cs) := by
  rw [unspendKeys, List.foldl_map]
  refine forM_ok (P := fun inputs cs ↦ Undoable cs (inputs.map TransactionInput.key)) ?_ h
  intro inp inputs cs h
  obtain ⟨⟨rec, hrec⟩, -⟩ := h.2 inp.key (by simp)
  rw [List.map_cons] at h
  simp only [hrec]
  refine ⟨?_, h.tail⟩
  rw [unspendInput, run_bind_get, hrec]
  rfl

theorem rewindTx_run {height : UInt32} {tx : Bool × Transaction} {txid : Bytes}
    (hid : txidForOutputs na tx.2 = .ok txid)
    (h : Undoable (removeUtxos ((txEffect na height tx).created.map Prod.fst) cs)
      (txEffect na height tx).consumed) :
    rewindTx na tx cs = .ok () (Effect.undo (txEffect na height tx) cs) := by
  obtain ⟨isCb, tx⟩ := tx
  have houts : (txEffect na height (isCb, tx)).created.map Prod.fst =
      (outputsOf txid 0 isCb 0 tx.outputs).map Prod.fst := by
    simp [txEffect, hid, Except.toOption, outputsOf_keys txid height 0]
  have hstart : rewindTx na (isCb, tx) cs =
      (if isCb then pure () else tx.inputs.forM unspendInput : M Unit)
        (removeUtxos ((outputsOf txid 0 isCb 0 tx.outputs).map Prod.fst) cs) := by
    simp only [rewindTx, hid]
    rfl
  rw [hstart, Effect.undo, houts]
  rw [houts] at h
  cases isCb with
  | true => rfl
  | false => exact unspendInputs_run h

theorem rewindBlock_run {block : Block} {height : UInt32}
    (hid : ∀ tx ∈ block.transactions, ∃ txid, txidForOutputs na tx = .ok txid)
    (h : Rewindable cs (blockEffects na block height)) :
    rewindBlock na block cs = .ok () (undoAll (blockEffects na block height) cs) := by
  rw [undoAll, blockEffects, List.foldl_map]
  refine forM_ok (P := fun txs cs ↦ (∀ tx ∈ txs, ∃ txid, txidForOutputs na tx.2 = .ok txid) ∧
    Rewindable cs (txs.map (txEffect na height))) ?_ ⟨?_, h⟩
  · rintro tx txs cs ⟨hid, h⟩
    obtain ⟨txid, htxid⟩ := hid tx (by simp)
    exact ⟨rewindTx_run na htxid h.head, fun t ht ↦ hid t (by simp [ht]), h.tail⟩
  · exact fun tx htx ↦ hid tx.2 (mem_of_mem_flagged htx)

theorem rewindBlock_addBlock {block : Block} {height : UInt32}
    (hid : ∀ tx ∈ block.transactions, ∃ txid, txidForOutputs na tx = .ok txid)
    (h : Fresh cs (blockEffects na block height))
    (hnd : (createdKeys (blockEffects na block height)).Nodup) :
    ∃ cs', addBlock na block height cs = .ok () cs' ∧ rewindBlock na block cs' = .ok () cs := by
  obtain ⟨hrew, hundo⟩ := undoAll_applyAll h hnd
  refine ⟨_, addBlock_run na hid h.spendable, ?_⟩
  rw [rewindBlock_run na hid hrew, hundo]

end FheBlockchain.Store.ChainstateRewind
