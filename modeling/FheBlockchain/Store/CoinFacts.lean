import FheBlockchain.Store.ChainstateRewind
import FheBlockchain.Store.Coins

namespace FheBlockchain.Store.CoinFacts

open Core.Transactions Core.Blocks ChainstateEffects ChainstateRewind Coins
open Chainstate hiding M addBlock
open Library.Execution Library.FiniteMap

variable {na : Sodium} {w w' : Wallet} {block : Block} {tx : Transaction} {txid : Bytes}

def held (w : Wallet) (k : Bytes) : Option UInt64 := (w.coins.lookup k).map Coin.amount

section Filter

def receive (txid : Bytes) (w : Wallet) (outp : TransactionOutput × ℕ) : Wallet :=
  if outp.1.publicKey = w.publicKey then
    let coin : Coin := { input := .unsigned txid (UInt64.ofNat outp.2), amount := outp.1.amount }
    { w with coins := w.coins.insert coin.input.key coin }
  else w

def receiveAll (na : Sodium) (w : Wallet) (tx : Transaction) : Wallet :=
  tx.outputs.zipIdx.foldl (receive ((tx.txid na).toOption.getD [])) w

theorem filterTransaction_run (hid : tx.txid na = .ok txid) (w : Wallet) :
    filterTransaction na tx w = .ok () (receiveAll na w tx) := by
  rw [receiveAll, hid]
  refine forM_ok (P := fun _ _ ↦ True) (fun outp _ w _ ↦ ⟨?_, trivial⟩) trivial
  rw [filterOutput, run_bind_get, receive]
  split_ifs with hkey
  · rw [hid]
    rfl
  · rfl

theorem filterBlock_run (hids : ∀ tx ∈ block.transactions, ∃ txid, tx.txid na = .ok txid)
    (w : Wallet) :
    filterBlock na block w = .ok () (block.transactions.foldl (receiveAll na) w) := by
  refine forM_ok (g := fun tx w ↦ receiveAll na w tx)
    (P := fun txs _ ↦ ∀ tx ∈ txs, ∃ txid, tx.txid na = .ok txid) (fun tx txs w h ↦ ?_) hids
  obtain ⟨txid, hid⟩ := h tx (by simp)
  exact ⟨filterTransaction_run hid w, fun tx htx ↦ h tx (by simp [htx])⟩

structure Taken (outs : List (Bytes × UTXORecord)) (w w' : Wallet) : Prop where
  publicKey : w'.publicKey = w.publicKey
  own : ∀ out ∈ outs, held w' out.1 =
    if out.2.pubkey = w.publicKey then some out.2.amount else held w out.1
  other : ∀ k ∉ outs.map Prod.fst, held w' k = held w k

theorem Taken.append {outs outs' : List (Bytes × UTXORecord)} {w'' : Wallet}
    (h : Taken outs w w') (h' : Taken outs' w' w'')
    (hnd : ((outs ++ outs').map Prod.fst).Nodup) : Taken (outs ++ outs') w w'' := by
  rw [List.map_append, List.nodup_append] at hnd
  refine ⟨h'.publicKey.trans h.publicKey, fun out hout ↦ ?_, fun k hk ↦ ?_⟩
  · rcases List.mem_append.mp hout with hout | hout
    · have hkey : out.1 ∈ outs.map Prod.fst := List.mem_map_of_mem hout
      rw [h'.other _ fun hk ↦ hnd.2.2 _ hkey _ hk rfl]
      exact h.own out hout
    · have hkey : out.1 ∈ outs'.map Prod.fst := List.mem_map_of_mem hout
      rw [h'.own out hout, h.publicKey, h.other _ fun hk ↦ hnd.2.2 _ hk _ hkey rfl]
  · rw [List.map_append, List.mem_append, not_or] at hk
    rw [h'.other k hk.2, h.other k hk.1]

theorem taken_receive {height : UInt32} {isCb : Bool} (outp : TransactionOutput) (vout : ℕ) :
    Taken (outputsOf txid height isCb vout [outp]) w (receive txid w (outp, vout)) := by
  have hheld (k : Bytes) : held (receive txid w (outp, vout)) k =
      if outp.publicKey = w.publicKey ∧ k = txidVoutPairToKey txid (UInt64.ofNat vout) then
        some outp.amount else held w k := by
    rw [receive]
    by_cases hkey : outp.publicKey = w.publicKey
    · rw [if_pos hkey]
      simp only [held, lookup_insert_ite, TransactionInput.key, TransactionInput.unsigned, hkey,
        true_and]
      split_ifs <;> rfl
    · rw [if_neg hkey, if_neg fun h ↦ hkey h.1]
  refine ⟨?_, fun out hout ↦ ?_, fun k hk ↦ ?_⟩
  · rw [receive]
    split_ifs <;> rfl
  · obtain rfl := List.mem_singleton.mp hout
    simp [hheld]
  · have hne : k ≠ txidVoutPairToKey txid (UInt64.ofNat vout) := by simpa [outputsOf] using hk
    rw [hheld, if_neg fun h ↦ hne h.2]

theorem taken_outputs {height : UInt32} {isCb : Bool} {vout : ℕ}
    {outputs : List TransactionOutput}
    (hnd : ((outputsOf txid height isCb vout outputs).map Prod.fst).Nodup) :
    Taken (outputsOf txid height isCb vout outputs) w
      ((outputs.zipIdx vout).foldl (receive txid) w) := by
  induction outputs generalizing vout w with
  | nil => exact ⟨rfl, by simp [outputsOf], fun _ _ ↦ rfl⟩
  | cons outp outputs ih =>
    have hone := @taken_receive w txid height isCb outp vout
    have hnd' := hnd
    rw [outputsOf, List.map_cons, List.nodup_cons] at hnd'
    exact hone.append (ih hnd'.2) hnd

theorem taken_transaction {height : UInt32} {flag : Bool}
    (hnd : ((txEffect na height (flag, tx)).created.map Prod.fst).Nodup) :
    Taken (txEffect na height (flag, tx)).created w (receiveAll na w tx) := by
  by_cases hout : tx.outputs = []
  · rw [txEffect, receiveAll, hout]
    exact ⟨rfl, by simp [outputsOf], fun _ _ ↦ rfl⟩
  · rw [txEffect, txidForOutputs, if_neg hout] at hnd ⊢
    exact taken_outputs hnd

theorem taken_transactions {height : UInt32} {txs : List (Bool × Transaction)}
    (hnd : (createdKeys (txs.map (txEffect na height))).Nodup) :
    Taken (createdBy (txs.map (txEffect na height))) w
      ((txs.map Prod.snd).foldl (receiveAll na) w) := by
  induction txs generalizing w with
  | nil => exact ⟨rfl, by simp [createdBy], fun _ _ ↦ rfl⟩
  | cons tx txs ih =>
    have hnd' := hnd
    rw [List.map_cons, createdKeys_cons, List.nodup_append] at hnd'
    refine (taken_transaction hnd'.1).append (ih hnd'.2.1) ?_
    rw [List.map_append]
    rwa [List.map_cons, createdKeys_cons] at hnd

theorem map_snd_flagged (txs : List Transaction) : (flagged txs).map Prod.snd = txs := by
  cases txs with
  | nil => rfl
  | cons tx txs => simp [flagged, Function.comp_def]

theorem taken_block {height : UInt32} (hnd : (createdKeys (blockEffects na block height)).Nodup) :
    Taken (createdBy (blockEffects na block height)) w
      (block.transactions.foldl (receiveAll na) w) := by
  have h := @taken_transactions na w height (flagged block.transactions) hnd
  rwa [map_snd_flagged] at h

end Filter

section Spend

def inputKeys (block : Block) : List Bytes :=
  block.transactions.flatMap fun tx ↦ tx.inputs.map TransactionInput.key

theorem held_spendTransaction (k : Bytes) : held (spendTransaction tx w) k =
    if k ∈ tx.inputs.map TransactionInput.key then none else held w k := by
  rw [spendTransaction]
  induction tx.inputs generalizing w with
  | nil => rfl
  | cons inp inputs ih =>
    rw [List.foldl_cons, ih]
    simp only [held, lookup_erase_ite, List.map_cons, List.mem_cons]
    by_cases hk : k = inp.key <;> simp [hk]

theorem held_spendBlock (k : Bytes) : held (spendBlock block w) k =
    if k ∈ inputKeys block then none else held w k := by
  rw [spendBlock, inputKeys]
  induction block.transactions generalizing w with
  | nil => rfl
  | cons tx txs ih =>
    rw [List.foldl_cons, ih, held_spendTransaction, List.flatMap_cons]
    by_cases hk : k ∈ tx.inputs.map TransactionInput.key <;> simp [hk]

theorem publicKey_spendBlock : (spendBlock block w).publicKey = w.publicKey := by
  have htx (tx : Transaction) (w : Wallet) : (spendTransaction tx w).publicKey = w.publicKey := by
    rw [spendTransaction]
    induction tx.inputs generalizing w with
    | nil => rfl
    | cons inp inputs ih => exact ih _
  rw [spendBlock]
  induction block.transactions generalizing w with
  | nil => rfl
  | cons tx txs ih => rw [List.foldl_cons, ih, htx]

end Spend

/-- The wallet holds what `filterByPubkey` finds under its key, with the amounts of
the chainstate. -/
def OwnCoins (cs : MemChainstate) (w : Wallet) : Prop :=
  ∀ k, held w k = if k ∈ cs.filterByPubkey w.publicKey then
    (cs.storage.lookup k).map UTXORecord.amount else none

theorem mem_filterByPubkey {cs : MemChainstate} {pubkey : PublicKey} {k : Bytes} :
    k ∈ cs.filterByPubkey pubkey ↔ ∃ rec, cs.storage.lookup k = some rec ∧ rec.pubkey = pubkey := by
  rw [MemChainstate.filterByPubkey, Finset.mem_filter, Finmap.mem_keys, Finmap.mem_iff]
  cases cs.storage.lookup k with
  | none => simp
  | some rec => simp

theorem ownCoins_iff {cs : MemChainstate} : OwnCoins cs w ↔ ∀ k, held w k =
    ((cs.storage.lookup k).filter fun rec ↦ rec.pubkey = w.publicKey).map UTXORecord.amount := by
  refine forall_congr' fun k ↦ Eq.congr_right ?_
  split_ifs with hk
  · obtain ⟨rec, hrec, hmine⟩ := mem_filterByPubkey.mp hk
    rw [hrec, Option.filter_some_pos (by simpa using hmine)]
  · cases hrec : cs.storage.lookup k with
    | none => rfl
    | some rec =>
      have hmine : rec.pubkey ≠ w.publicKey := fun h ↦ hk (mem_filterByPubkey.mpr ⟨rec, hrec, h⟩)
      rw [Option.filter_some_neg (by simpa using hmine)]
      rfl

section Step

variable {cs : MemChainstate} {height : UInt32}

def Harmless (na : Sodium) (cs : MemChainstate) (block : Block) (height : UInt32) : Prop :=
  ∀ k ∈ inputKeys block, k ∈ consumedBy (blockEffects na block height) ∨
    k ∉ createdKeys (blockEffects na block height) ∧ cs.storage.lookup k = none

theorem consumed_sub_inputKeys {k : Bytes} (hk : k ∈ consumedBy (blockEffects na block height)) :
    k ∈ inputKeys block := by
  obtain ⟨e, he, hk⟩ := List.mem_flatMap.mp hk
  obtain ⟨tx, htx, rfl⟩ := List.mem_map.mp he
  rw [txEffect] at hk
  split_ifs at hk with hcb
  · simp at hk
  · exact List.mem_flatMap.mpr ⟨tx.2, mem_of_mem_flagged htx, hk⟩

theorem ownCoins_applied (hown : OwnCoins cs w) (hfresh : Fresh cs (blockEffects na block height))
    (hnd : (createdKeys (blockEffects na block height)).Nodup)
    (hharmless : Harmless na cs block height) (hkey : w'.publicKey = w.publicKey)
    (hnew : ∀ out ∈ createdBy (blockEffects na block height),
      held w' out.1 = if out.2.pubkey = w.publicKey then some out.2.amount else none)
    (hold : ∀ k ∉ createdKeys (blockEffects na block height),
      held w' k = if k ∈ inputKeys block then none else held w k) :
    OwnCoins (applyAll (blockEffects na block height) cs) w' := by
  refine ownCoins_iff.mpr fun k ↦ ?_
  by_cases hk : k ∈ createdKeys (blockEffects na block height)
  · obtain ⟨out, hout, rfl⟩ := List.mem_map.mp hk
    rw [hnew out hout, applyAll_created hfresh hnd hout, hkey]
    by_cases hmine : out.2.pubkey = w.publicKey <;> simp [hmine]
  · rw [hold k hk, (applyAll_applied hfresh hnd).unspent k hk, hkey, ownCoins_iff.mp hown k]
    by_cases hcons : k ∈ consumedBy (blockEffects na block height)
    · rw [if_pos (consumed_sub_inputKeys hcons), if_pos hcons]
      rfl
    · rw [if_neg hcons]
      split_ifs with hin
      · rcases hharmless k hin with hc | ⟨-, hnone⟩
        · exact absurd hc hcons
        · rw [hnone]
          rfl
      · rfl

theorem held_new (hown : OwnCoins cs w) (hfresh : Fresh cs (blockEffects na block height))
    {out : Bytes × UTXORecord} (hout : out ∈ createdBy (blockEffects na block height)) :
    held w out.1 = none := by
  rw [ownCoins_iff.mp hown, hfresh.created _ (List.mem_map_of_mem hout)]
  rfl

theorem new_notMem_inputKeys (hfresh : Fresh cs (blockEffects na block height))
    (hharmless : Harmless na cs block height) {k : Bytes}
    (hk : k ∈ createdKeys (blockEffects na block height)) : k ∉ inputKeys block := by
  intro hin
  rcases hharmless k hin with hc | ⟨hnew, -⟩
  · exact hfresh.notMem hc hk
  · exact hnew hk

theorem ownCoins_arrival (hown : OwnCoins cs w) (hfresh : Fresh cs (blockEffects na block height))
    (hnd : (createdKeys (blockEffects na block height)).Nodup)
    (hharmless : Harmless na cs block height) :
    OwnCoins (applyAll (blockEffects na block height) cs)
      (spendBlock block (block.transactions.foldl (receiveAll na) w)) := by
  have hrec := @taken_block na w block height hnd
  refine ownCoins_applied hown hfresh hnd hharmless (publicKey_spendBlock.trans hrec.publicKey)
    (fun out hout ↦ ?_) fun k hk ↦ ?_
  · rw [held_spendBlock, if_neg (new_notMem_inputKeys hfresh hharmless (List.mem_map_of_mem hout)),
      hrec.own out hout, held_new hown hfresh hout]
  · rw [held_spendBlock, hrec.other k hk]

theorem ownCoins_rescan (hown : OwnCoins cs w) (hfresh : Fresh cs (blockEffects na block height))
    (hnd : (createdKeys (blockEffects na block height)).Nodup)
    (hharmless : Harmless na cs block height) :
    OwnCoins (applyAll (blockEffects na block height) cs)
      (block.transactions.foldl (receiveAll na) (spendBlock block w)) := by
  have hrec := @taken_block na (spendBlock block w) block height hnd
  refine ownCoins_applied hown hfresh hnd hharmless (hrec.publicKey.trans publicKey_spendBlock)
    (fun out hout ↦ ?_) fun k hk ↦ ?_
  · rw [hrec.own out hout, publicKey_spendBlock, held_spendBlock,
      if_neg (new_notMem_inputKeys hfresh hharmless (List.mem_map_of_mem hout)),
      held_new hown hfresh hout]
  · rw [hrec.other k hk, held_spendBlock]

end Step

end FheBlockchain.Store.CoinFacts
