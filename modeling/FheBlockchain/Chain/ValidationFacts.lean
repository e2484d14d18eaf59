import FheBlockchain.Chain.Validation
import FheBlockchain.Library.Results
import FheBlockchain.Store.ChainstateKeys

namespace FheBlockchain.Chain.ValidationFacts

open Core.Transactions Core.Blocks Store.Chainstate Store.ChainstateEffects Store.ChainstateKeys
open Store.Pools Validation
open Library.Execution Library.Results

variable {env : Env} {cfg : Config} {cs : MemChainstate}

theorem getHeader_ok {chain : List BlockHeader} {height : UInt32} (hne : chain ≠ [])
    (h : ¬ currentHeight chain < height) :
    ∃ header ∈ chain, getHeader chain height = .ok header := by
  have hpos := List.length_pos_iff.mpr hne
  have hlt : height.toNat < chain.length := by
    simp only [currentHeight, UInt32.not_lt, UInt32.le_iff_toNat_le, UInt32.toNat_sub,
      UInt32.toNat_ofNat', UInt32.toNat_one] at h
    omega
  refine ⟨chain[height.toNat], List.getElem_mem hlt, ?_⟩
  rw [getHeader, List.getElem?_eq_getElem hlt]

def keysOf (tx : Transaction) : List Bytes := tx.inputs.map TransactionInput.key

def Found (cs : MemChainstate) (inputs : List TransactionInput) (recs : List UTXORecord) : Prop :=
  List.Forall₂ (fun inp rec ↦ cs.storage.lookup inp.key = some rec) inputs recs

theorem lookupInputs_some {inputs : List TransactionInput} {seen seen' : List Bytes}
    {recs : List UTXORecord} (h : lookupInputs cs seen inputs = some (seen', recs))
    (hnd : seen.Nodup) :
    seen' = (inputs.map TransactionInput.key).reverse ++ seen ∧ seen'.Nodup ∧
      Found cs inputs recs := by
  induction inputs generalizing seen recs with
  | nil =>
    obtain ⟨rfl, rfl⟩ := Prod.ext_iff.mp (Option.some.inj h)
    exact ⟨rfl, hnd, .nil⟩
  | cons inp inputs ih =>
    rw [lookupInputs] at h
    split_ifs at h with hmem
    cases hrec : cs.storage.lookup inp.key with
    | none => simp [hrec] at h
    | some rec =>
      simp only [hrec, Option.map_eq_some_iff] at h
      obtain ⟨⟨s, rs⟩, hrest, he⟩ := h
      obtain ⟨rfl, rfl⟩ := Prod.ext_iff.mp he
      obtain ⟨rfl, hnd', hfound⟩ := ih hrest (List.nodup_cons.mpr ⟨hmem, hnd⟩)
      exact ⟨by simp, hnd', .cons hrec hfound⟩

structure CheckedTx where
  pooled : PooledTx
  txid : Bytes
  fee : UInt64

structure TxChecked (env : Env) (cs : MemChainstate) (tx : Transaction) (c : CheckedTx) :
    Prop where
  tx_eq : c.pooled.tx = tx
  txid_eq : tx.txid env.toSodium = .ok c.txid
  fee_eq : c.pooled.fee = .ok c.fee
  found : ∃ recs, Found cs tx.inputs recs ∧ c.pooled.inAmounts = recs.map UTXORecord.amount ∧
    tx.validateTransaction env.toSodium (recs.map UTXORecord.pubkey)
      (recs.map UTXORecord.amount) = .ok true

theorem checkTx_some {check check' : BlockCheck} {tx : Transaction}
    (h : checkTx env cs check tx = .ok (some check')) (hnd : check.tempUtxoRef.Nodup) :
    ∃ c, TxChecked env cs tx c ∧
      check' = {
        tempUtxoRef := (keysOf tx).reverse ++ check.tempUtxoRef
        allowedFee := check.allowedFee + c.fee
        hashes := check.hashes ++ [c.txid]
        txs := check.txs ++ [c.pooled] } ∧ check'.tempUtxoRef.Nodup := by
  rw [checkTx] at h
  cases hlook : lookupInputs cs check.tempUtxoRef tx.inputs with
  | none => simp [hlook] at h
  | some r =>
    obtain ⟨seen, recs⟩ := r
    obtain ⟨rfl, hnd', hfound⟩ := lookupInputs_some hlook hnd
    simp only [hlook, bind_eq_ok] at h
    obtain ⟨ok, hvalid, h⟩ := h
    cases ok with
    | false => simp [pure, Except.pure] at h
    | true =>
      simp only [Bool.not_true, Bool.false_eq_true, if_false, bind_eq_ok] at h
      obtain ⟨fee, hfee, txid, htxid, he⟩ := h
      obtain rfl := Option.some.inj (Except.ok.inj he)
      exact ⟨⟨⟨tx, recs.map UTXORecord.amount⟩, txid, fee⟩,
        ⟨rfl, htxid, hfee, recs, hfound, rfl, hvalid⟩, rfl, hnd'⟩

theorem checkTxs_some {check check' : BlockCheck} {txs : List Transaction}
    (h : checkTxs env cs check txs = .ok (some check')) (hnd : check.tempUtxoRef.Nodup) :
    ∃ cks, List.Forall₂ (TxChecked env cs) txs cks ∧
      check'.tempUtxoRef = (txs.flatMap keysOf).reverse ++ check.tempUtxoRef ∧
      check'.tempUtxoRef.Nodup ∧
      check'.allowedFee = (cks.map CheckedTx.fee).foldl (· + ·) check.allowedFee ∧
      check'.txs = check.txs ++ cks.map CheckedTx.pooled := by
  induction txs generalizing check with
  | nil =>
    obtain rfl := Option.some.inj (Except.ok.inj h)
    exact ⟨[], .nil, rfl, hnd, rfl, by simp⟩
  | cons tx txs ih =>
    rw [checkTxs, bind_eq_ok] at h
    obtain ⟨mid, htx, h⟩ := h
    cases mid with
    | none => simp [pure, Except.pure] at h
    | some mid =>
      obtain ⟨c, hc, rfl, hnd'⟩ := checkTx_some htx hnd
      obtain ⟨cks, hcks, href, hnd'', hfee, htxs⟩ := ih h hnd'
      exact ⟨c :: cks, .cons hc hcks, by simp [href], hnd'', hfee, by simp [htxs]⟩

structure BlockChecked (env : Env) (cfg : Config) (chain : List BlockHeader) (cs : MemChainstate)
    (block : Block) (height : UInt32) (cb : Transaction) (rest : List Transaction)
    (cks : List CheckedTx) : Prop where
  transactions : block.transactions = cb :: rest
  cbid : ∃ cbid, cb.txid env.toSodium = .ok cbid
  checked : List.Forall₂ (TxChecked env cs) rest cks
  distinct : (rest.flatMap keysOf).Nodup
  reward : ∃ reward outp, rewardForHeight cfg height = .ok reward ∧ cb.outputs.head? = some outp ∧
    reward ≤ outp.amount + Transaction.total (cks.map CheckedTx.fee)
  header : validateHeaderUnsafe env cfg chain block.header height = .ok true

theorem firstOutput_ok {tx : Transaction} {outp : TransactionOutput}
    (h : firstOutput tx = .ok outp) : tx.outputs.head? = some outp := by
  rw [firstOutput] at h
  split at h
  · simp at h
  · obtain rfl := Except.ok.inj h
    simp [*]

variable {chain : List BlockHeader} {block : Block} {height : UInt32}

theorem verifyComputations_true {header : BlockHeader} {idx : ℕ} {comps : List Computation}
    (h : verifyComputations env header idx comps = .ok true) : ∀ comp ∈ comps, comp.proof ≠ [] := by
  induction comps generalizing idx with
  | nil => simp
  | cons comp comps ih =>
    simp only [verifyComputations, bind_eq_ok] at h
    obtain ⟨proof, hproof, verdict, -, h⟩ := h
    cases verdict with
    | false => simp [pure, Except.pure] at h
    | true =>
      refine List.forall_mem_cons.mpr ⟨fun hnil ↦ ?_, ih h⟩
      rw [Computation.getProof, if_pos hnil] at hproof
      cases hproof

theorem validateHeader_true {header : BlockHeader}
    (h : validateHeaderUnsafe env cfg chain header height = .ok true) :
    verifyComputations env header 0 header.computations = .ok true := by
  simp only [validateHeaderUnsafe, bind_eq_ok] at h
  obtain ⟨d, -, h⟩ := h
  split_ifs at h
  · simp [pure, Except.pure] at h
  · simp [pure, Except.pure] at h
  · simp [pure, Except.pure] at h
  · exact h

theorem proven_of_header (h : validateHeaderUnsafe env cfg chain block.header height = .ok true) :
    Proven block := verifyComputations_true (validateHeader_true h)

theorem validateBlock_some {txs : List PooledTx}
    (h : validateBlock env cfg chain cs block height = .ok (some txs)) :
    ∃ cb rest cks, BlockChecked env cfg chain cs block height cb rest cks ∧
      txs = ⟨cb, []⟩ :: cks.map CheckedTx.pooled := by
  rw [validateBlock] at h
  split at h
  · simp at h
  next cb rest htxs =>
    simp only [bind_eq_ok] at h
    obtain ⟨cbid, hcbid, check, hcheck, h⟩ := h
    cases check with
    | none => simp [pure, Except.pure] at h
    | some check =>
      obtain ⟨cks, hcks, href, hnd, hfee, hout⟩ := checkTxs_some hcheck List.nodup_nil
      simp only [bind_eq_ok] at h
      obtain ⟨reward, hreward, outp, houtp, h⟩ := h
      split_ifs at h with hlow hroot
      · simp [pure, Except.pure] at h
      · simp [pure, Except.pure] at h
      rw [bind_eq_ok] at h
      obtain ⟨valid, hvalid, h⟩ := h
      cases valid with
      | false => simp [pure, Except.pure] at h
      | true =>
        obtain rfl := Option.some.inj (Except.ok.inj h)
        refine ⟨cb, rest, cks, ⟨htxs, ⟨cbid, hcbid⟩, hcks, ?_, ?_, hvalid⟩, by simp [hout]⟩
        · rw [href, List.append_nil] at hnd
          exact List.nodup_reverse.mp hnd
        · rw [hfee] at hlow
          exact ⟨reward, outp, hreward, firstOutput_ok houtp, UInt64.not_lt.mp hlow⟩

section Accepting

theorem lookupInputs_of_found {seen : List Bytes} {inputs : List TransactionInput}
    {recs : List UTXORecord} (h : Found cs inputs recs)
    (hnd : ((inputs.map TransactionInput.key).reverse ++ seen).Nodup) :
    lookupInputs cs seen inputs =
      some ((inputs.map TransactionInput.key).reverse ++ seen, recs) := by
  induction h generalizing seen with
  | nil => rfl
  | @cons inp rec inputs recs hrec _ ih =>
    rw [List.map_cons, List.reverse_cons, List.append_assoc, List.singleton_append] at hnd ⊢
    have hmem : inp.key ∉ seen := (List.nodup_cons.mp (List.nodup_append.mp hnd).2.1).1
    rw [lookupInputs, if_neg hmem, hrec]
    simp only [ih hnd, Option.map_some]

theorem checkTx_of_checked {check : BlockCheck} {tx : Transaction} {c : CheckedTx}
    (h : TxChecked env cs tx c) (hnd : ((keysOf tx).reverse ++ check.tempUtxoRef).Nodup) :
    checkTx env cs check tx = .ok (some {
      tempUtxoRef := (keysOf tx).reverse ++ check.tempUtxoRef
      allowedFee := check.allowedFee + c.fee
      hashes := check.hashes ++ [c.txid]
      txs := check.txs ++ [c.pooled] }) := by
  obtain ⟨recs, hfound, hamounts, hvalid⟩ := h.found
  have hfee := h.fee_eq
  rw [PooledTx.fee, h.tx_eq, hamounts] at hfee
  have hpooled : c.pooled = ⟨tx, recs.map UTXORecord.amount⟩ := by
    rw [← h.tx_eq, ← hamounts]
  rw [checkTx, lookupInputs_of_found hfound hnd, hpooled]
  simp only [hvalid, hfee, h.txid_eq, bind, Except.bind, Bool.not_true, Bool.false_eq_true,
    if_false]
  rfl

theorem checkTxs_of_checked {check : BlockCheck} {txs : List Transaction} {cks : List CheckedTx}
    (h : List.Forall₂ (TxChecked env cs) txs cks)
    (hnd : ((txs.flatMap keysOf).reverse ++ check.tempUtxoRef).Nodup) :
    ∃ check', checkTxs env cs check txs = .ok (some check') ∧
      check'.allowedFee = (cks.map CheckedTx.fee).foldl (· + ·) check.allowedFee ∧
      check'.hashes = check.hashes ++ cks.map CheckedTx.txid := by
  induction h generalizing check with
  | nil => exact ⟨check, rfl, rfl, by simp⟩
  | @cons tx c txs cks hc _ ih =>
    rw [List.flatMap_cons, List.reverse_append, List.append_assoc] at hnd
    have htx := checkTx_of_checked hc (List.nodup_append.mp hnd).2.1
    obtain ⟨check', hrun, hfee, hhashes⟩ := @ih {
      tempUtxoRef := (keysOf tx).reverse ++ check.tempUtxoRef
      allowedFee := check.allowedFee + c.fee
      hashes := check.hashes ++ [c.txid]
      txs := check.txs ++ [c.pooled] } hnd
    refine ⟨check', ?_, hfee, by simp [hhashes]⟩
    rw [checkTxs, htx]
    exact hrun

theorem validateBlock_of_checked {cb : Transaction} {rest : List Transaction}
    {cks : List CheckedTx} {cbid : Bytes}
    (h : BlockChecked env cfg chain cs block height cb rest cks)
    (hcb : cb.txid env.toSodium = .ok cbid)
    (hroot : block.header.merkleRoot =
      Merkle.computeRoot env.toSodium (cks.length + 1) (cbid :: cks.map CheckedTx.txid)) :
    ∃ txs, validateBlock env cfg chain cs block height = .ok (some txs) := by
  let check : BlockCheck :=
    { tempUtxoRef := [], allowedFee := 0, hashes := [cbid], txs := [⟨cb, []⟩] }
  obtain ⟨check', hrun, hfee, hhashes⟩ := @checkTxs_of_checked env cs check rest cks h.checked
    (by simpa [check] using h.distinct)
  obtain ⟨reward, outp, hreward, houtp, hle⟩ := h.reward
  have hfirst : firstOutput cb = .ok outp := by
    rw [firstOutput]
    cases ho : cb.outputs with
    | nil => simp [ho] at houtp
    | cons o os =>
      rw [ho, List.head?_cons, Option.some.injEq] at houtp
      rw [houtp]
  have hlow : ¬ outp.amount + check'.allowedFee < reward := by
    rw [hfee]
    exact UInt64.not_lt.mpr hle
  have hall : check'.hashes = cbid :: cks.map CheckedTx.txid := by
    rw [hhashes]
    rfl
  have hlen : check'.hashes.length = cks.length + 1 := by
    rw [hall, List.length_cons, List.length_map]
  refine ⟨check'.txs, ?_⟩
  rw [validateBlock, h.transactions]
  refine bind_eq_ok.mpr ⟨cbid, hcb, bind_eq_ok.mpr ⟨some check', hrun, ?_⟩⟩
  refine bind_eq_ok.mpr ⟨reward, hreward, bind_eq_ok.mpr ⟨outp, hfirst, ?_⟩⟩
  rw [if_neg hlow, hlen, hall, if_neg (not_not.mpr hroot.symm)]
  exact bind_eq_ok.mpr ⟨true, h.header, rfl⟩

end Accepting

theorem checkTxs_hashes {check check' : BlockCheck} {txs : List Transaction}
    (h : checkTxs env cs check txs = .ok (some check')) :
    ∃ txids, txs.mapM (Transaction.txid env.toSodium) = .ok txids ∧
      check'.hashes = check.hashes ++ txids := by
  induction txs generalizing check with
  | nil =>
    obtain rfl := Option.some.inj (Except.ok.inj h)
    exact ⟨[], rfl, (List.append_nil _).symm⟩
  | cons tx txs ih =>
    rw [checkTxs, bind_eq_ok] at h
    obtain ⟨mid, htx, h⟩ := h
    cases mid with
    | none => simp [pure, Except.pure] at h
    | some mid =>
      obtain ⟨txids, hids, hhashes⟩ := ih h
      obtain ⟨txid, hid, hmid⟩ : ∃ txid, tx.txid env.toSodium = .ok txid ∧
          mid.hashes = check.hashes ++ [txid] := by
        rw [checkTx] at htx
        split at htx
        · simp at htx
        · simp only [bind_eq_ok] at htx
          obtain ⟨valid, -, htx⟩ := htx
          cases valid with
          | false => simp [pure, Except.pure] at htx
          | true =>
            simp only [Bool.not_true, Bool.false_eq_true, if_false, bind_eq_ok] at htx
            obtain ⟨fee, -, txid, hid, he⟩ := htx
            obtain rfl := Option.some.inj (Except.ok.inj he)
            exact ⟨txid, hid, rfl⟩
      exact ⟨txid :: txids, mapM_cons_ok hid hids, by rw [hhashes, hmid]; simp⟩

theorem validateBlock_root {txs : List PooledTx}
    (h : validateBlock env cfg chain cs block height = .ok (some txs)) :
    ∃ txids, block.transactions.mapM (Transaction.txid env.toSodium) = .ok txids ∧
      block.header.merkleRoot = Merkle.computeRoot env.toSodium txids.length txids := by
  rw [validateBlock] at h
  split at h
  · simp at h
  next cb rest htxs =>
    simp only [bind_eq_ok] at h
    obtain ⟨cbid, hcbid, check, hcheck, h⟩ := h
    cases check with
    | none => simp [pure, Except.pure] at h
    | some check =>
      obtain ⟨txids, hids, hhashes⟩ := checkTxs_hashes hcheck
      simp only [bind_eq_ok] at h
      obtain ⟨reward, -, outp, -, h⟩ := h
      split_ifs at h with hlow hroot
      · simp [pure, Except.pure] at h
      · simp [pure, Except.pure] at h
      rw [not_not, hhashes] at hroot
      refine ⟨cbid :: txids, ?_, hroot.symm⟩
      rw [htxs]
      exact mapM_cons_ok hcbid hids

namespace BlockChecked

variable {cb : Transaction} {rest : List Transaction} {cks : List CheckedTx}

theorem txid_ok (h : BlockChecked env cfg chain cs block height cb rest cks) :
    ∀ tx ∈ block.transactions, ∃ txid, tx.txid env.toSodium = .ok txid := by
  intro tx htx
  rw [h.transactions, List.mem_cons] at htx
  rcases htx with rfl | htx
  · exact h.cbid
  · obtain ⟨c, -, hc⟩ := exists_of_forall₂ h.checked htx
    exact ⟨c.txid, hc.txid_eq⟩

theorem consumedBy_blockEffects (na : Sodium) (height' : UInt32)
    (h : block.transactions = cb :: rest) :
    consumedBy (blockEffects na block height') = rest.flatMap keysOf := by
  have hrest (txs : List Transaction) :
      ((txs.map (false, ·)).map (txEffect na height')).flatMap Effect.consumed =
        txs.flatMap keysOf := by
    induction txs with
    | nil => rfl
    | cons tx txs ih =>
      simp only [List.map_cons, List.flatMap_cons, ih]
      rfl
  simp only [blockEffects, h, flagged, consumedBy, List.map_cons, List.flatMap_cons, hrest]
  rfl

theorem found_of_mem (h : BlockChecked env cfg chain cs block height cb rest cks)
    {tx : Transaction} (htx : tx ∈ rest) : ∃ recs, Found cs tx.inputs recs := by
  obtain ⟨c, -, hc⟩ := exists_of_forall₂ h.checked htx
  obtain ⟨recs, hrecs, -⟩ := hc.found
  exact ⟨recs, hrecs⟩

theorem spendable (h : BlockChecked env cfg chain cs block height cb rest cks)
    (height' : UInt32) : Spendable cs (blockEffects env.toSodium block height') := by
  rw [Spendable, consumedBy_blockEffects _ _ h.transactions]
  refine ⟨h.distinct, fun k hk ↦ ?_⟩
  obtain ⟨tx, htx, hk⟩ := List.mem_flatMap.mp hk
  obtain ⟨inp, hinp, rfl⟩ := List.mem_map.mp hk
  obtain ⟨recs, hrecs⟩ := h.found_of_mem htx
  obtain ⟨rec, -, hrec⟩ := exists_of_forall₂ hrecs hinp
  exact ⟨rec, hrec⟩

end BlockChecked

theorem txidForOutputs_ok {na : Sodium} {tx : Transaction} (h : ∃ txid, tx.txid na = .ok txid) :
    ∃ txid, txidForOutputs na tx = .ok txid := by
  rw [txidForOutputs]
  split_ifs
  · exact ⟨_, rfl⟩
  · exact h

/-- A block whose identifiers can be computed and whose inputs refer to distinct
unspent outputs. -/
structure Takeable (na : Sodium) (cs : MemChainstate) (block : Block) : Prop where
  ids : ∀ tx ∈ block.transactions, ∃ txid, tx.txid na = .ok txid
  proven : Proven block
  spendable : Spendable cs (blockEffects na block 0)

theorem Takeable.spendable_at {na : Sodium} (h : Takeable na cs block) (height : UInt32) :
    Spendable cs (blockEffects na block height) := by
  have := h.spendable
  simp only [Spendable, consumedBy_blockEffects] at this ⊢
  exact this

theorem Takeable.addBlock_run {na : Sodium} (h : Takeable na cs block) (height : UInt32) :
    addBlock na block height cs = .ok () (applyAll (blockEffects na block height) cs) :=
  Store.ChainstateEffects.addBlock_run na (fun tx htx ↦ txidForOutputs_ok (h.ids tx htx))
    (h.spendable_at height)

theorem proven_of_validated {txs : List PooledTx}
    (h : validateBlock env cfg chain cs block height = .ok (some txs)) : Proven block := by
  obtain ⟨cb, rest, cks, hb, -⟩ := validateBlock_some h
  exact proven_of_header hb.header

theorem takeable_of_validated {txs : List PooledTx}
    (h : validateBlock env cfg chain cs block height = .ok (some txs)) :
    Takeable env.toSodium cs block := by
  obtain ⟨cb, rest, cks, hb, -⟩ := validateBlock_some h
  exact ⟨hb.txid_ok, proven_of_header hb.header, hb.spendable 0⟩

end FheBlockchain.Chain.ValidationFacts
