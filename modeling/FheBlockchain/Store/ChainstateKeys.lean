import FheBlockchain.Core.Serialization
import FheBlockchain.Store.ChainstateRewind

namespace FheBlockchain.Store.ChainstateKeys

open Core.Transactions Core.Blocks Core.Serialization Chainstate ChainstateEffects ChainstateRewind
open Library.BigEndian

variable (na : Sodium)

def createdByTx (tx : Bool × Transaction) : List Bytes := (txEffect na 0 tx).created.map Prod.fst

def consumedByTx (tx : Bool × Transaction) : List Bytes := (txEffect na 0 tx).consumed

theorem mem_outputsOf {txid : Bytes} {height : UInt32} {isCb : Bool} {vout : ℕ}
    {outputs : List TransactionOutput} {k : Bytes} :
    k ∈ (outputsOf txid height isCb vout outputs).map Prod.fst ↔
      ∃ i < outputs.length, k = txidVoutPairToKey txid (UInt64.ofNat (vout + i)) := by
  induction outputs generalizing vout with
  | nil => simp [outputsOf]
  | cons outp outputs ih =>
    simp only [outputsOf, List.map_cons, List.mem_cons, ih, List.length_cons]
    constructor
    · rintro (rfl | ⟨i, hi, rfl⟩)
      · exact ⟨0, by omega, rfl⟩
      · exact ⟨i + 1, by omega, by rw [Nat.add_assoc, Nat.add_comm 1]⟩
    · rintro ⟨_ | i, hi, rfl⟩
      · exact .inl rfl
      · exact .inr ⟨i, by omega, by rw [Nat.add_assoc, Nat.add_comm 1]⟩

theorem txidVoutPairToKey_inj {txid txid' : Bytes} {vout vout' : UInt64}
    (h : txidVoutPairToKey txid vout = txidVoutPairToKey txid' vout') :
    txid = txid' ∧ uint64ToVectorBigEndian vout = uint64ToVectorBigEndian vout' :=
  List.append_inj' h (by simp)

theorem outputsOf_nodup {txid : Bytes} {height : UInt32} {isCb : Bool} {vout : ℕ}
    {outputs : List TransactionOutput} (h : vout + outputs.length ≤ 2 ^ 64) :
    ((outputsOf txid height isCb vout outputs).map Prod.fst).Nodup := by
  induction outputs generalizing vout with
  | nil => exact List.nodup_nil
  | cons outp outputs ih =>
    rw [List.length_cons] at h
    refine List.nodup_cons.mpr ⟨fun hmem ↦ ?_, ih (by omega)⟩
    obtain ⟨i, hi, he⟩ := mem_outputsOf.mp hmem
    have hb := (txidVoutPairToKey_inj he).2
    have hv := bigEndian_inj (UInt64.toNat_lt _) (UInt64.toNat_lt _) hb
    have hsize : UInt64.size = 2 ^ 64 := rfl
    rw [UInt64.toNat_ofNat_of_lt' (by omega), UInt64.toNat_ofNat_of_lt' (by omega)] at hv
    omega

theorem createdByTx_nodup {tx : Bool × Transaction} (hfit : tx.2.outputs.length ≤ 2 ^ 64) :
    (createdByTx na tx).Nodup := by
  rw [createdByTx, txEffect]
  exact outputsOf_nodup (by omega)

def chainTxs (blocks : List Block) : List (Bool × Transaction) :=
  blocks.flatMap fun block ↦ flagged block.transactions

def createdIn (blocks : List Block) : List Bytes := (chainTxs blocks).flatMap (createdByTx na)

def consumedIn (blocks : List Block) : List Bytes := (chainTxs blocks).flatMap (consumedByTx na)

theorem createdKeys_blockEffects (block : Block) (height : UInt32) :
    createdKeys (blockEffects na block height) =
      (flagged block.transactions).flatMap (createdByTx na) := by
  rw [createdKeys, createdBy, blockEffects, List.flatMap_map, List.map_flatMap]
  refine List.flatMap_congr fun tx _ ↦ ?_
  simp only [createdByTx, txEffect]
  exact outputsOf_keys _ _ _ _ _ _

theorem consumedBy_blockEffects (block : Block) (height : UInt32) :
    consumedBy (blockEffects na block height) =
      (flagged block.transactions).flatMap (consumedByTx na) := by
  rw [consumedBy, blockEffects, List.flatMap_map]
  rfl

theorem chainTxs_append (blocks : List Block) (block : Block) :
    chainTxs (blocks ++ [block]) = chainTxs blocks ++ flagged block.transactions := by
  simp [chainTxs]

theorem createdIn_append (blocks : List Block) (block : Block) (height : UInt32) :
    createdIn na (blocks ++ [block]) =
      createdIn na blocks ++ createdKeys (blockEffects na block height) := by
  rw [createdIn, chainTxs_append, List.flatMap_append, createdKeys_blockEffects, createdIn]

theorem consumedIn_append (blocks : List Block) (block : Block) (height : UInt32) :
    consumedIn na (blocks ++ [block]) =
      consumedIn na blocks ++ consumedBy (blockEffects na block height) := by
  rw [consumedIn, chainTxs_append, List.flatMap_append, consumedBy_blockEffects, consumedIn]

structure Keyed (cs : MemChainstate) (created consumed : List Bytes) : Prop where
  unspent : ∀ k rec, cs.storage.lookup k = some rec → k ∈ created ∧ k ∉ consumed
  spent : ∀ k rec, cs.spentSet.lookup k = some rec → k ∈ consumed
  consumed_sub : ∀ k ∈ consumed, k ∈ created
  consumed_nodup : consumed.Nodup

theorem keyed_empty : Keyed .empty [] [] where
  unspent k rec h := by simp [MemChainstate.empty] at h
  spent k rec h := by simp [MemChainstate.empty] at h
  consumed_sub := by simp
  consumed_nodup := List.nodup_nil

section Step

variable {cs : MemChainstate} {created consumed : List Bytes} {es : List Effect}

theorem Keyed.fresh (h : Keyed cs created consumed) (hs : Spendable cs es)
    (hnd : (created ++ createdKeys es).Nodup) : Fresh cs es := by
  refine ⟨hs, fun k hk ↦ ?_, fun k hk ↦ ?_⟩
  · by_contra hne
    obtain ⟨rec, hrec⟩ := Option.ne_none_iff_exists'.mp hne
    exact (List.nodup_append.mp hnd).2.2 k (h.unspent k rec hrec).1 k hk rfl
  · by_contra hne
    obtain ⟨rec, hrec⟩ := Option.ne_none_iff_exists'.mp hne
    obtain ⟨rec', hrec'⟩ := hs.2 k hk
    exact (h.unspent k rec' hrec').2 (h.spent k rec hrec)

theorem Keyed.consumed_notMem (h : Keyed cs created consumed) (hs : Spendable cs es) {k : Bytes}
    (hk : k ∈ consumedBy es) : k ∈ created ∧ k ∉ consumed := by
  obtain ⟨rec, hrec⟩ := hs.2 k hk
  exact h.unspent k rec hrec

theorem Keyed.step (h : Keyed cs created consumed) (hs : Spendable cs es)
    (hnd : (created ++ createdKeys es).Nodup) :
    Keyed (applyAll es cs) (created ++ createdKeys es) (consumed ++ consumedBy es) := by
  have hnd' := List.nodup_append.mp hnd
  have hfresh := h.fresh hs hnd
  have happ := applyAll_applied hfresh hnd'.2.1
  refine ⟨fun k rec hk ↦ ?_, fun k rec hk ↦ ?_, fun k hk ↦ ?_, ?_⟩
  · by_cases hc : k ∈ createdKeys es
    · refine ⟨List.mem_append_right _ hc, fun hmem ↦ ?_⟩
      rcases List.mem_append.mp hmem with hold | hnew
      · exact hnd'.2.2 k (h.consumed_sub k hold) k hc rfl
      · exact hfresh.notMem hnew hc
    · rw [happ.unspent k hc] at hk
      split_ifs at hk with hnew
      obtain ⟨hcr, hco⟩ := h.unspent k rec hk
      exact ⟨List.mem_append_left _ hcr, by simp [hco, hnew]⟩
  · rw [happ.spent] at hk
    split_ifs at hk with hnew
    · exact List.mem_append_right _ hnew
    · exact List.mem_append_left _ (h.spent k rec hk)
  · rcases List.mem_append.mp hk with hold | hnew
    · exact List.mem_append_left _ (h.consumed_sub k hold)
    · exact List.mem_append_left _ (h.consumed_notMem hs hnew).1
  · refine List.nodup_append.mpr ⟨h.consumed_nodup, hs.1, fun k hk k' hk' he ↦ ?_⟩
    exact (h.consumed_notMem hs hk').2 (he ▸ hk)

end Step

end FheBlockchain.Store.ChainstateKeys
