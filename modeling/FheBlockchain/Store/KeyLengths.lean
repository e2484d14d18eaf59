import FheBlockchain.Store.ChainstateKeys

namespace FheBlockchain.Store.KeyLengths

open Core.Transactions Core.Blocks Core.Serialization Chainstate ChainstateEffects ChainstateKeys
open Library.Execution Library.FiniteMap

variable {na : Sodium} {cs : MemChainstate} {key : Bytes} {rec : UTXORecord}

structure KeySizes (cs : MemChainstate) : Prop where
  unspent : ∀ key rec, cs.storage.lookup key = some rec → key.length = 40
  spent : ∀ key rec, cs.spentSet.lookup key = some rec → key.length = 40

theorem keySizes_empty : KeySizes .empty := by
  constructor <;> intro key rec h <;> simp [MemChainstate.empty] at h

theorem KeySizes.addUtxo (h : KeySizes cs) (hkey : key.length = 40) (rec : UTXORecord) :
    KeySizes (cs.addUtxo key rec).1 := by
  refine ⟨fun k r hk ↦ ?_, fun k r hk ↦ ?_⟩
  · rw [addUtxo_lookup] at hk
    split_ifs at hk with he
    · rw [he]
      exact hkey
    · exact h.unspent k r hk
  · rw [addUtxo_spentSet] at hk
    exact h.spent k r hk

theorem KeySizes.addUtxos {outs : List (Bytes × UTXORecord)} (h : KeySizes cs)
    (houts : ∀ key ∈ outs.map Prod.fst, key.length = 40) : KeySizes (addUtxos outs cs) := by
  induction outs generalizing cs with
  | nil => exact h
  | cons out outs ih =>
    rw [List.map_cons, List.forall_mem_cons] at houts
    exact ih (h.addUtxo houts.1 out.2) houts.2

theorem KeySizes.removeSpentUtxo (h : KeySizes cs) (key : Bytes) :
    KeySizes (cs.removeSpentUtxo key) := by
  refine ⟨h.unspent, fun k r hk ↦ ?_⟩
  rw [MemChainstate.removeSpentUtxo, lookup_erase_ite] at hk
  split_ifs at hk
  exact h.spent k r hk

theorem KeySizes.removeUtxo (h : KeySizes cs) (key : Bytes) (save : Bool) :
    KeySizes (cs.removeUtxo key save).1 := by
  refine ⟨fun k r hk ↦ ?_, fun k r hk ↦ ?_⟩
  · rw [removeUtxo_lookup] at hk
    split_ifs at hk
    exact h.unspent k r hk
  · cases hrec : cs.storage.lookup key with
    | none =>
      rw [removeUtxo_of_none save hrec] at hk
      exact h.spent k r hk
    | some rec =>
      rw [removeUtxo_of_some save hrec] at hk
      cases save with
      | false => exact h.spent k r hk
      | true =>
        simp only [if_true, MemChainstate.addSpentUtxo] at hk
        split_ifs at hk
        · exact h.spent k r hk
        · rw [lookup_insert_ite] at hk
          split_ifs at hk with he
          · rw [he]
            exact h.unspent key rec hrec
          · exact h.spent k r hk

theorem KeySizes.removeUtxos (h : KeySizes cs) (keys : List Bytes) :
    KeySizes (removeUtxos keys cs) := by
  induction keys generalizing cs with
  | nil => exact h
  | cons key keys ih => exact ih (h.removeUtxo key false)

theorem length_outputKeys {txid : Bytes} {tx : Transaction} (h : txidForOutputs na tx = .ok txid)
    (height : UInt32) (isCb : Bool) :
    ∀ key ∈ (outputsOf txid height isCb 0 tx.outputs).map Prod.fst, key.length = 40 := by
  intro key hkey
  obtain ⟨i, hi, rfl⟩ := mem_outputsOf.mp hkey
  rw [txidForOutputs] at h
  split_ifs at h with hnone
  · simp [hnone] at hi
  · obtain ⟨ser, -, rfl⟩ := txid_serialize h
    rw [txidVoutPairToKey, List.length_append, na.length_hash, length_uint64ToVectorBigEndian]

theorem post_spendInput (h : KeySizes cs) (inp : TransactionInput) :
    Post (spendInput inp) cs (fun _ ↦ KeySizes) (fun _ ↦ KeySizes) := by
  cases hrec : cs.storage.lookup inp.key with
  | none =>
    rw [spendInput, post_bind_get, removeUtxo_of_none true hrec]
    trivial
  | some rec =>
    rw [Post, spendInput_run hrec]
    exact h.removeUtxo inp.key true

theorem post_unspendInput (h : KeySizes cs) (inp : TransactionInput) :
    Post (unspendInput inp) cs (fun _ ↦ KeySizes) (fun _ ↦ KeySizes) := by
  rw [unspendInput, post_bind_get]
  cases hrec : cs.spentSet.lookup inp.key with
  | none => trivial
  | some rec => exact (h.addUtxo (h.spent _ rec hrec) rec).removeSpentUtxo inp.key

theorem post_addBlock (h : KeySizes cs) (block : Block) (height : UInt32) :
    Post (addBlock na block height) cs (fun _ ↦ KeySizes) (fun _ ↦ KeySizes) := by
  refine post_forM (fun tx _ cs h ↦ ?_) h
  refine post_bind_ofExcept (fun txid htxid ↦ ?_) fun _ _ ↦ h
  rw [post_bind_modify]
  have hadded := h.addUtxos (length_outputKeys htxid height tx.1)
  split_ifs
  · exact hadded
  · exact post_forM (fun inp _ cs h ↦ post_spendInput h inp) hadded

theorem post_rewindBlock (h : KeySizes cs) (block : Block) :
    Post (rewindBlock na block) cs (fun _ ↦ KeySizes) (fun _ ↦ KeySizes) := by
  refine post_forM (fun tx _ cs h ↦ ?_) h
  refine post_bind_ofExcept (fun txid _ ↦ ?_) fun _ _ ↦ h
  rw [post_bind_modify]
  have hremoved := h.removeUtxos ((outputsOf txid 0 tx.1 0 tx.2.outputs).map Prod.fst)
  split_ifs
  · exact hremoved
  · exact post_forM (fun inp _ cs h ↦ post_unspendInput h inp) hremoved

/-- The chainstates that blocks lead to, added and rewound in any order, whether
or not an exception ends it. -/
inductive Reached (na : Sodium) : MemChainstate → Prop
  | empty : Reached na .empty
  | add {cs cs' : MemChainstate} {block : Block} {height : UInt32} :
      Reached na cs → Ends (addBlock na block height) cs cs' → Reached na cs'
  | rewind {cs cs' : MemChainstate} {block : Block} :
      Reached na cs → Ends (rewindBlock na block) cs cs' → Reached na cs'

theorem Reached.keySizes (h : Reached na cs) : KeySizes cs := by
  induction h with
  | empty => exact keySizes_empty
  | add _ hends ih => exact hends.of_post (post_addBlock ih _ _)
  | rewind _ hends ih => exact hends.of_post (post_rewindBlock ih _)

end FheBlockchain.Store.KeyLengths
