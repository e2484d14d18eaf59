import FheBlockchain.Chain.Accepted
import FheBlockchain.Chain.ValidationFacts
import FheBlockchain.Store.RewindRuns

namespace FheBlockchain.Chain.Removals

open Core.Transactions Core.Blocks Store.Chainstate Store.ChainstateEffects Store.Pools
open Validation ValidationFacts
open Library.Execution Library.Results

/-- `add_block` up to one of its calls of `remove_utxo`: it has taken in the
transactions `before` and the outputs of `tx`, and removed the outputs that the
inputs `spent` of `tx` refer to. -/
def addBlockUpTo (na : Sodium) (height : UInt32) (before : List (Bool × Transaction))
    (tx : Transaction) (spent : List TransactionInput) : M Unit := do
  before.forM (addTx na height)
  let txid ← Exec.ofExcept (txidForOutputs na tx)
  modify (addUtxos (outputsOf txid height false 0 tx.outputs))
  spent.forM spendInput

def addBlockFrom (na : Sodium) (height : UInt32) (unspent : List TransactionInput)
    (after : List Transaction) : M Unit := do
  unspent.forM spendInput
  (after.map (false, ·)).forM (addTx na height)

section Split

variable {na : Sodium} {cs cs' : MemChainstate} {height : UInt32}

theorem addBlock_split {block : Block} {cb tx : Transaction} {before after : List Transaction}
    {spent unspent : List TransactionInput}
    (htxs : block.transactions = cb :: (before ++ tx :: after)) (hins : tx.inputs = spent ++ unspent)
    (h : addBlockUpTo na height (flagged (cb :: before)) tx spent cs = .ok () cs') :
    addBlock na block height cs = addBlockFrom na height unspent after cs' := by
  rw [addBlockUpTo, run_bind_ok] at h
  obtain ⟨⟨⟩, cs₁, hbefore, h⟩ := h
  have hflag : flagged block.transactions =
      flagged (cb :: before) ++ (false, tx) :: after.map (false, ·) := by
    simp [htxs, flagged]
  rw [addBlock, hflag, forM_append _ hbefore]
  change (addTx na height (false, tx) >>= fun _ ↦ _) cs₁ = _
  cases hid : txidForOutputs na tx with
  | error e => simp [hid] at h
  | ok txid =>
    simp only [hid, run_bind_ofExcept_ok, run_bind_modify] at h
    have htx : addTx na height (false, tx) cs₁ = unspent.forM spendInput cs' := by
      rw [← forM_append unspent h, ← hins]
      simp [addTx, hid]
    simp only [addBlockFrom, bind, EStateM.bind, htx]

theorem addBlockUpTo_run {before : List (Bool × Transaction)} {tx : Transaction}
    {after : List Effect} {spent unspent : List TransactionInput} {inp : TransactionInput}
    {rec : UTXORecord} (hins : tx.inputs = spent ++ inp :: unspent)
    (hid : ∀ t ∈ before, ∃ txid, txidForOutputs na t.2 = .ok txid)
    (hidtx : ∃ txid, txidForOutputs na tx = .ok txid)
    (h : Spendable cs (before.map (txEffect na height) ++ txEffect na height (false, tx) :: after))
    (hrec : cs.storage.lookup inp.key = some rec) :
    ∃ cs', addBlockUpTo na height before tx spent cs = .ok () cs' ∧
      cs'.storage.lookup inp.key = some rec := by
  obtain ⟨txid, htxid⟩ := hidtx
  obtain ⟨hbefore, hrest⟩ := h.of_append
  have hkeys : (txEffect na height (false, tx)).consumed =
      spent.map TransactionInput.key ++ inp.key :: unspent.map TransactionInput.key := by
    simp [txEffect, hins]
  have hnd := hrest.head.1
  rw [hkeys] at hnd
  have hnd' := List.nodup_append.mp hnd
  have hearlier : inp.key ∉ consumedBy (before.map (txEffect na height)) := by
    intro hk
    have hall := h.1
    rw [consumedBy, List.flatMap_append] at hall
    refine (List.nodup_append.mp hall).2.2 _ hk inp.key ?_ rfl
    simp [hkeys]
  have hspent : inp.key ∉ spent.map TransactionInput.key :=
    fun hk ↦ hnd'.2.2 _ hk inp.key (by simp) rfl
  have hkept := @addUtxos_lookup_of_some _ (outputsOf txid height false 0 tx.outputs) _ _
    (applyAll_lookup_of_some hrec hearlier)
  refine ⟨_, ?_, (spendKeys_lookup_of_notMem hspent).trans hkept⟩
  rw [addBlockUpTo, run_bind_of_ok (addTxs_run na hid hbefore), htxid]
  refine spendInputs_run hnd'.1 fun i hi ↦ ?_
  have hmem : i.key ∈ (txEffect na height (false, tx)).consumed := by
    rw [hkeys]
    exact List.mem_append_left _ (List.mem_map_of_mem hi)
  obtain ⟨r, hr⟩ := hrest.head.2 i.key hmem
  exact ⟨r, addUtxos_lookup_of_some hr⟩

end Split

variable {env : Env} {cfg : Config} {chain : List BlockHeader} {cs : MemChainstate} {block : Block}
  {height : UInt32}

/-- The records that `validate_block` finds for the inputs of a transaction, which give
it the public keys and the amounts to check them with. -/
structure Checked (env : Env) (cs : MemChainstate) (tx : Transaction) (pooled : Option PooledTx)
    (recs : List UTXORecord) : Prop where
  found : Found cs tx.inputs recs
  valid : tx.validateTransaction env.toSodium (recs.map UTXORecord.pubkey)
    (recs.map UTXORecord.amount) = .ok true
  amounts : pooled = some ⟨tx, recs.map UTXORecord.amount⟩

theorem validated_checked {txs : List PooledTx} {cb tx : Transaction}
    {before after : List Transaction}
    (h : validateBlock env cfg chain cs block height = .ok (some txs))
    (htxs : block.transactions = cb :: (before ++ tx :: after)) :
    ∃ recs, Checked env cs tx txs[before.length + 1]? recs := by
  obtain ⟨cb', rest, cks, hb, rfl⟩ := validateBlock_some h
  have hrest := hb.transactions
  rw [htxs, List.cons.injEq] at hrest
  obtain ⟨rfl, rfl⟩ := hrest
  obtain ⟨c, hat, hc⟩ := getElem?_of_forall₂ hb.checked
  obtain ⟨recs, hfound, hamounts, hvalid⟩ := hc.found
  refine ⟨recs, hfound, hvalid, ?_⟩
  rw [List.getElem?_cons_succ, List.getElem?_map, hat, ← hamounts, ← hc.tx_eq]
  rfl

/-- A block that `validate_block` accepts is taken in: each `remove_utxo` of
`add_block` finds the very record whose key and amount the input was checked with. -/
theorem validated_removals {txs : List PooledTx}
    (h : validateBlock env cfg chain cs block height = .ok (some txs)) :
    (∃ cs', addBlock env.toSodium block height cs = .ok () cs') ∧
    ∀ cb before tx after, block.transactions = cb :: (before ++ tx :: after) →
      ∃ recs, Checked env cs tx txs[before.length + 1]? recs ∧
        ∀ spent inp unspent, tx.inputs = spent ++ inp :: unspent →
          ∃ cs' rec,
            addBlockUpTo env.toSodium height (flagged (cb :: before)) tx spent cs = .ok () cs' ∧
            addBlock env.toSodium block height cs =
              addBlockFrom env.toSodium height (inp :: unspent) after cs' ∧
            recs[spent.length]? = some rec ∧ cs'.storage.lookup inp.key = some rec ∧
            (cs'.removeUtxo inp.key true).2 = true := by
  have htake := takeable_of_validated h
  refine ⟨⟨_, htake.addBlock_run height⟩, fun cb before tx after htxs ↦ ?_⟩
  obtain ⟨recs, hrecs⟩ := validated_checked h htxs
  refine ⟨recs, hrecs, fun spent inp unspent hins ↦ ?_⟩
  have hfound := hrecs.found
  rw [hins] at hfound
  obtain ⟨rec, hat, hrec⟩ := getElem?_of_forall₂ hfound
  have heffects : blockEffects env.toSodium block height =
      (flagged (cb :: before)).map (txEffect env.toSodium height) ++
        txEffect env.toSodium height (false, tx) ::
          (after.map (false, ·)).map (txEffect env.toSodium height) := by
    simp [blockEffects, htxs, flagged]
  have hspend := htake.spendable_at height
  rw [heffects] at hspend
  have hid : ∀ t ∈ block.transactions, ∃ txid, txidForOutputs env.toSodium t = .ok txid :=
    fun t ht ↦ txidForOutputs_ok (htake.ids t ht)
  have hbefore : ∀ t ∈ flagged (cb :: before), ∃ txid, txidForOutputs env.toSodium t.2 = .ok txid := by
    intro t ht
    have hmem := mem_of_mem_flagged ht
    exact hid t.2 (by rw [htxs]; simp at hmem ⊢; tauto)
  obtain ⟨cs', hrun, hlook⟩ := addBlockUpTo_run hins hbefore (hid tx (by simp [htxs])) hspend hrec
  refine ⟨cs', rec, hrun, addBlock_split htxs hins hrun, hat, hlook, ?_⟩
  rw [removeUtxo_of_some true hlook]

section Sample

open Accepted Store.RewindRuns
open Core.Amounts (spending)

def genesisCoin : TransactionInput :=
  { TransactionInput.unsigned
      (((coinbaseTransaction sampleKey 50 0).txid sampleEnv.toSodium).toOption.getD []) 0 with
    isSigned := true, sig := zeros 64 }

def splitTx : Transaction :=
  spending sampleEnv.toSodium (coinbaseTransaction sampleKey 50 0) [20, 30]

def splitBlock : Block :=
  sampleBlock sampleGenesis 1 [coinbaseTransaction sampleKey 50 1, splitTx]

theorem splitBlock_removals : ∃ cs' rec,
    addBlockUpTo sampleEnv.toSodium 1 (flagged [coinbaseTransaction sampleKey 50 1]) splitTx []
      sampleStart.chainstate = .ok () cs' ∧
    cs'.storage.lookup genesisCoin.key = some rec ∧
    (cs'.removeUtxo genesisCoin.key true).2 = true := by
  obtain ⟨-, h⟩ := @validated_removals sampleEnv sampleConfig sampleStart.mainChain.headerChain
    sampleStart.chainstate splitBlock 1
    [⟨coinbaseTransaction sampleKey 50 1, []⟩, ⟨splitTx, [50]⟩] (by decide +kernel)
  obtain ⟨recs, -, h⟩ := h (coinbaseTransaction sampleKey 50 1) [] splitTx [] rfl
  obtain ⟨cs', rec, hrun, -, -, hlook, hremoved⟩ := h [] genesisCoin [] rfl
  exact ⟨cs', rec, hrun, hlook, hremoved⟩

end Sample

end FheBlockchain.Chain.Removals
