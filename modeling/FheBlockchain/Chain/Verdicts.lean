import FheBlockchain.Chain.Decoding
import FheBlockchain.Chain.Delivery
import FheBlockchain.Chain.Issuance
import FheBlockchain.Chain.Rechecks
import FheBlockchain.Core.Signatures
import FheBlockchain.Store.KeyLengths

namespace FheBlockchain.Chain.Verdicts

open Core.Transactions Core.Blocks Core.Serialization Core.Signatures Store.Pools
open Validation ValidationFacts Rechecks
open Exceptions Decoding Delivery Issuance Wire Accepted Proofs
open Store.Chainstate hiding M addBlock
open Store.KeyLengths (Reached KeySizes)
open Computer.AstMeaning Computer.Computations Computer.Binding Computer.Proving Computer.Checking
open Library.BigEndian Library.Results

variable {env : Env} {cfg : Config} {chain : List BlockHeader} {cs : MemChainstate}
variable {block : Block} {height : UInt32} {header : BlockHeader}
variable {fhe : OpenFhe} {B V F : Type} [CommSemiring F] {enc : Encryption fhe}
variable {L : Libraries fhe B V F} {comps : List (FHEComputer fhe)}

section Header

variable (enc L) in
/-- Each object has a proof, an output and a tree that can be evaluated, up to the
first whose proof does not convince. -/
def ProofsReached (header : BlockHeader) (comps : List (FHEComputer fhe)) (idx : ℕ) : Prop :=
  ∀ (i : ℕ) (comp : FHEComputer fhe), comps[i]? = some comp →
    (∀ (j : ℕ) (c : FHEComputer fhe), j < i → comps[j]? = some c →
      bindAndVerify enc L c (bindingData header (idx + j)) = .ok true) →
    comp.proof ≠ [] ∧ Checkable comp

theorem proofsReached_cons {comp : FHEComputer fhe} {idx : ℕ} :
    ProofsReached enc L header (comp :: comps) idx ↔ (comp.proof ≠ [] ∧ Checkable comp) ∧
      (bindAndVerify enc L comp (bindingData header idx) = .ok true →
        ProofsReached enc L header comps (idx + 1)) := by
  constructor
  · refine fun h ↦ ⟨h 0 comp rfl (by simp), fun hverify i c hi hbefore ↦ ?_⟩
    refine h (i + 1) c hi fun j c' hj hc' ↦ ?_
    cases j with
    | zero =>
      obtain rfl := Option.some.inj hc'
      exact hverify
    | succ j =>
      have := hbefore j c' (by omega) hc'
      rwa [Nat.add_assoc, Nat.add_comm 1 j] at this
  · rintro ⟨hfirst, hrest⟩ i c hi hbefore
    cases i with
    | zero =>
      obtain rfl := Option.some.inj hi
      exact hfirst
    | succ i =>
      refine hrest (hbefore 0 comp (by omega) rfl) i c hi fun j c' hj hc' ↦ ?_
      have := hbefore (j + 1) c' (by omega) hc'
      rwa [Nat.add_comm j 1, ← Nat.add_assoc] at this

theorem isOk_verifyObjects (hL : Obliging L) {idx : ℕ} :
    (verifyObjects enc L header idx comps).isOk = true ↔ ProofsReached enc L header comps idx := by
  induction comps generalizing idx with
  | nil => simp [verifyObjects, ProofsReached, Except.isOk, Except.toBool]
  | cons comp comps ih =>
    rw [verifyObjects, proofsReached_cons, ← isOk_bindAndVerify hL comp (bindingData header idx)]
    cases hverify : bindAndVerify enc L comp (bindingData header idx) with
    | error e => simp [bind, Except.bind, Except.isOk, Except.toBool]
    | ok convinced =>
      have hthere : (Except.ok convinced : Result Bool).isOk = true := rfl
      have hok : (Except.ok false : Result Bool).isOk = true := rfl
      cases convinced with
      | false => simp [bind, Except.bind, pure, Except.pure, hok]
      | true => simp [bind, Except.bind, ih, hthere]

variable (enc L) in
/-- What the check of a header needs: the headers that retargeting reads, and the
proofs if no earlier check has failed. -/
def HeaderJudged (env : Env) (cfg : Config) (chain : List BlockHeader) (header : BlockHeader)
    (comps : List (FHEComputer fhe)) (height : UInt32) : Prop :=
  ∃ d, getDifficultyForHeight env cfg chain height = .ok d ∧
    (d = header.difficulty → header.computations ≠ [] → d ≤ totalDepth header.computations →
      ProofsReached enc L header comps 0)

theorem isOk_validateHeader (hL : Obliging L)
    (hshown : comps.mapM FHEComputer.toComputation = .ok header.computations)
    (hjudges : Judges env enc L header comps) :
    (validateHeaderUnsafe env cfg chain header height).isOk = true ↔
      HeaderJudged enc L env cfg chain header comps height := by
  rw [validateHeader_objects hshown hjudges, validateHeaderObjects]
  cases hd : getDifficultyForHeight env cfg chain height with
  | error e => simp [HeaderJudged, hd, bind, Except.bind, Except.isOk, Except.toBool]
  | ok d =>
    have hok : (Except.ok false : Result Bool).isOk = true := rfl
    simp only [HeaderJudged, hd, bind, Except.bind, Except.ok.injEq, exists_eq_left']
    split_ifs with hne hnil hlow
    · simp [hne, pure, Except.pure, hok]
    · simp [hnil, pure, Except.pure, hok]
    · simp [UInt32.not_le.mpr hlow, pure, Except.pure, hok]
    · rw [isOk_verifyObjects hL]
      rw [not_not] at hne
      exact ⟨fun h _ _ _ ↦ h, fun h ↦ h hne hnil (UInt32.not_lt.mp hlow)⟩

end Header

section Transactions

variable {na : Sodium} {tx cb : Transaction} {rest : List Transaction}

theorem length_txid_of_found (h : KeySizes cs) {inputs : List TransactionInput}
    {recs : List UTXORecord}
    (hfound : Found cs inputs recs) : ∀ inp ∈ inputs, inp.txid.length = 32 := by
  intro inp hinp
  obtain ⟨rec, -, hrec⟩ := exists_of_forall₂ hfound hinp
  have := h.unspent _ _ hrec
  simp only [TransactionInput.key, txidVoutPairToKey, List.length_append,
    length_uint64ToVectorBigEndian] at this
  omega

theorem isOk_signedBytes (h : ∀ inp ∈ tx.inputs, inp.txid.length = 32) (idx : ℕ)
    (pubkey : PublicKey) : (tx.signedBytes idx pubkey).isOk = true :=
  isOk_iff.mpr ⟨_, serialize_of_fitting (fitting_shown idx pubkey h)⟩

theorem isOk_verifyInputs (h : ∀ inp ∈ tx.inputs, inp.txid.length = 32)
    (inps : List (TransactionInput × PublicKey)) (idx : ℕ) :
    (tx.verifyInputs na inps idx).isOk = true := by
  induction inps generalizing idx with
  | nil => rfl
  | cons inp inps ih =>
    obtain ⟨msg, hmsg⟩ := isOk_iff.mp (isOk_signedBytes h idx inp.2)
    rw [Transaction.verifyInputs, hmsg]
    simp only [bind, Except.bind]
    split_ifs
    · exact ih _
    · rfl

theorem isOk_validateTransaction (h : ∀ inp ∈ tx.inputs, inp.txid.length = 32)
    (pubkeys : List PublicKey) (amounts : List UInt64) :
    (tx.validateTransaction na pubkeys amounts).isOk = true := by
  rw [Transaction.validateTransaction]
  split_ifs
  · rfl
  · rfl
  · exact isOk_verifyInputs h _ _

theorem length_sig_le {isCoinbase : Bool} {inp : TransactionInput}
    (h : Core.Messages.TransactionInput.Sendable isCoinbase inp) :
    inp.sig.length ≤ inp.sigSize.toNat := by
  cases h with
  | unsigned txid vout => exact Nat.zero_le _
  | signed hlen => exact hlen.le

theorem isOk_txid_iff {isCoinbase : Bool} (h : Core.Messages.Transaction.Sendable isCoinbase tx) :
    (tx.txid na).isOk = true ↔
      AllSigned tx ∧ ∀ inp ∈ tx.inputs, inp.txid.length ≤ 44 + inp.sigSize.toNat := by
  by_cases hs : AllSigned tx
  · rw [isOk_txid hs, and_iff_right hs]
    refine forall₂_congr fun inp hinp ↦ ?_
    rw [isOk_serialize, and_iff_left (length_sig_le (h inp hinp))]
  · rw [Transaction.txid, if_neg hs]
    simp [hs, Except.isOk, Except.toBool]

theorem isOk_checkTx (hsizes : KeySizes cs) (h : Core.Messages.Transaction.Sendable false tx)
    {check : BlockCheck} (hnd : check.tempUtxoRef.Nodup) :
    (checkTx env cs check tx).isOk = true := by
  rw [checkTx]
  cases hlook : lookupInputs cs check.tempUtxoRef tx.inputs with
  | none => rfl
  | some found =>
    obtain ⟨seen, recs⟩ := found
    have h32 := length_txid_of_found hsizes (lookupInputs_some hlook hnd).2.2
    have hjudged : (tx.validateTransaction env.toSodium (recs.map UTXORecord.pubkey)
        (recs.map UTXORecord.amount)).isOk = true := isOk_validateTransaction h32 _ _
    obtain ⟨valid, hvalid⟩ := isOk_iff.mp hjudged
    simp only [hvalid, bind, Except.bind]
    cases valid with
    | false => rfl
    | true =>
      obtain ⟨hs, fee, hfee⟩ := validateTransaction_true hvalid
      have hroom : ∀ inp ∈ tx.inputs, inp.txid.length ≤ 44 + inp.sigSize.toNat := fun inp hinp ↦ by
        have := h32 inp hinp
        omega
      have hhashed : (tx.txid env.toSodium).isOk = true := (isOk_txid_iff h).mpr ⟨hs, hroom⟩
      obtain ⟨txid, htxid⟩ := isOk_iff.mp hhashed
      simp only [hfee, htxid]
      rfl

theorem isOk_checkTxs (hsizes : KeySizes cs)
    (h : ∀ tx ∈ rest, Core.Messages.Transaction.Sendable false tx) {check : BlockCheck}
    (hnd : check.tempUtxoRef.Nodup) : (checkTxs env cs check rest).isOk = true := by
  induction rest generalizing check with
  | nil => rfl
  | cons tx rest ih =>
    have hfirst : (checkTx env cs check tx).isOk = true := isOk_checkTx hsizes (h tx (by simp)) hnd
    obtain ⟨mid, hmid⟩ := isOk_iff.mp hfirst
    rw [checkTxs, hmid]
    cases mid with
    | none => rfl
    | some mid =>
      obtain ⟨c, -, -, hnd'⟩ := checkTx_some hmid hnd
      exact ih (fun tx' htx' ↦ h tx' (by simp [htx'])) hnd'

def Passing (env : Env) (cs : MemChainstate) (rest : List Transaction) (cks : List CheckedTx) :
    Prop :=
  List.Forall₂ (TxChecked env cs) rest cks ∧ (rest.flatMap keysOf).Nodup

def firstCheck (cb : Transaction) (cbid : Bytes) : BlockCheck :=
  { tempUtxoRef := [], allowedFee := 0, hashes := [cbid], txs := [⟨cb, []⟩] }

theorem Passing.run {cks : List CheckedTx} (h : Passing env cs rest cks) (cb : Transaction)
    (cbid : Bytes) : ∃ check, checkTxs env cs (firstCheck cb cbid) rest = .ok (some check) ∧
      check.allowedFee = Transaction.total (cks.map CheckedTx.fee) ∧
      check.hashes = cbid :: cks.map CheckedTx.txid := by
  have hdistinct : ((rest.flatMap keysOf).reverse ++ (firstCheck cb cbid).tempUtxoRef).Nodup := by
    simpa [firstCheck] using h.2
  exact checkTxs_of_checked h.1 hdistinct

theorem passing_of_checked {cbid : Bytes} {check : BlockCheck} :
    checkTxs env cs (firstCheck cb cbid) rest = .ok (some check) →
      ∃ cks, Passing env cs rest cks ∧
        check.allowedFee = Transaction.total (cks.map CheckedTx.fee) ∧
        check.hashes = cbid :: cks.map CheckedTx.txid := by
  intro h
  obtain ⟨cks, hcks, href, hnd, -, -⟩ := checkTxs_some h List.nodup_nil
  have hdistinct : (rest.flatMap keysOf).Nodup := by
    rw [href, firstCheck, List.append_nil] at hnd
    exact List.nodup_reverse.mp hnd
  have hpass : Passing env cs rest cks := ⟨hcks, hdistinct⟩
  obtain ⟨check', hrun, hfee, hhashes⟩ := hpass.run cb cbid
  obtain rfl := Option.some.inj (Except.ok.inj (hrun.symm.trans h))
  exact ⟨cks, hpass, hfee, hhashes⟩

end Transactions

section Verdict

variable {cb : Transaction} {rest : List Transaction}

theorem isOk_validateBlock_of_run {cbid : Bytes} {check : BlockCheck}
    (htxs : block.transactions = cb :: rest) (hcb : cb.txid env.toSodium = .ok cbid)
    (hrun : checkTxs env cs (firstCheck cb cbid) rest = .ok (some check)) :
    (validateBlock env cfg chain cs block height).isOk = true ↔
      ∃ reward outp, rewardForHeight cfg height = .ok reward ∧ cb.outputs.head? = some outp ∧
        (reward ≤ outp.amount + check.allowedFee → block.header.merkleRoot =
          Merkle.computeRoot env.toSodium check.hashes.length check.hashes →
          (validateHeaderUnsafe env cfg chain block.header height).isOk = true) := by
  rw [firstCheck] at hrun
  simp only [validateBlock, htxs, hcb, hrun, bind, Except.bind, firstOutput]
  cases hreward : rewardForHeight cfg height with
  | error e => simp [Except.isOk, Except.toBool]
  | ok reward =>
    cases houtp : cb.outputs with
    | nil => simp [Except.isOk, Except.toBool]
    | cons outp outps =>
      have hok : (Except.ok none : Result (Option (List PooledTx))).isOk = true := rfl
      simp only [List.head?_cons, Except.ok.injEq, Option.some.injEq, exists_and_left,
        exists_eq_left']
      split_ifs with hlow hroot
      · simp [UInt64.not_le.mpr hlow, pure, Except.pure, hok]
      · simp [Ne.symm hroot, pure, Except.pure, hok]
      · have hreached : (reward ≤ outp.amount + check.allowedFee → block.header.merkleRoot =
            Merkle.computeRoot env.toSodium check.hashes.length check.hashes →
            (validateHeaderUnsafe env cfg chain block.header height).isOk = true) ↔
            (validateHeaderUnsafe env cfg chain block.header height).isOk = true :=
          ⟨fun h ↦ h (UInt64.not_lt.mp hlow) (not_not.mp hroot).symm, fun h _ _ ↦ h⟩
        rw [hreached]
        cases validateHeaderUnsafe env cfg chain block.header height with
        | error e => rfl
        | ok valid => cases valid <;> rfl

variable (enc L) in
/-- What has to be there for a verdict on a block with the transactions
`cb :: rest`, each thing as far as the checks before it have passed. -/
structure Conclusive (env : Env) (cfg : Config) (chain : List BlockHeader) (cs : MemChainstate)
    (header : BlockHeader) (comps : List (FHEComputer fhe)) (height : UInt32) (cb : Transaction)
    (rest : List Transaction) : Prop where
  hashable : AllSigned cb ∧ ∀ inp ∈ cb.inputs, inp.txid.length ≤ 44 + inp.sigSize.toNat
  rewarded : ∀ cks, Passing env cs rest cks →
    cfg.blocksPerEpoch ≠ 0 ∧ epochOf cfg height < 64 ∧ cb.outputs ≠ []
  judged : ∀ cks cbid outp, Passing env cs rest cks → cb.txid env.toSodium = .ok cbid →
    cb.outputs.head? = some outp →
    cfg.reward.toNat / 2 ^ epochOf cfg height ≤
      (outp.amount + Transaction.total (cks.map CheckedTx.fee)).toNat →
    header.merkleRoot =
      Merkle.computeRoot env.toSodium (cks.length + 1) (cbid :: cks.map CheckedTx.txid) →
    HeaderJudged enc L env cfg chain header comps height

theorem getEpoch_ok {epoch : UInt32} (h : getEpoch cfg height = .ok epoch) :
    cfg.blocksPerEpoch ≠ 0 := by
  rintro hzero
  simp [getEpoch, hzero] at h

theorem rewardForHeight_ok {reward : UInt64} (h : rewardForHeight cfg height = .ok reward) :
    cfg.blocksPerEpoch ≠ 0 ∧ epochOf cfg height < 64 ∧
      reward.toNat = cfg.reward.toNat / 2 ^ epochOf cfg height := by
  obtain ⟨epoch, hepoch, -⟩ := bind_eq_ok.mp h
  have hb := getEpoch_ok hepoch
  exact ⟨hb, (rewardForHeight_iff hb).mp h⟩

theorem exists_reward (hb : cfg.blocksPerEpoch ≠ 0) (hlt : epochOf cfg height < 64) :
    ∃ reward, rewardForHeight cfg height = .ok reward := by
  refine ⟨UInt64.ofNat (cfg.reward.toNat / 2 ^ epochOf cfg height),
    (rewardForHeight_iff hb).mpr ⟨hlt, Nat.mod_eq_of_lt ?_⟩⟩
  exact (Nat.div_le_self ..).trans_lt cfg.reward.toNat_lt

variable {des : Computer.Messages.Deserialize fhe} {p : ProtoBlock}

theorem shown_of_fromProto (h : Block.fromProto des p = .ok (block, comps)) :
    comps.mapM FHEComputer.toComputation = .ok block.header.computations := by
  obtain ⟨⟨header, comps'⟩, hheader, h⟩ := bind_eq_ok.mp h
  obtain ⟨txs, -, he⟩ := bind_eq_ok.mp h
  obtain ⟨comps'', -, hheader⟩ := bind_eq_ok.mp hheader
  obtain ⟨ks, hks, hheader⟩ := bind_eq_ok.mp hheader
  cases he
  cases hheader
  exact hks

theorem sendable_of_block (h : Block.fromProto des p = .ok (block, comps)) :
    Wire.Sendable block.transactions := by
  obtain ⟨header, -, h⟩ := bind_eq_ok.mp h
  obtain ⟨txs, htxs, he⟩ := bind_eq_ok.mp h
  obtain ⟨rfl, -⟩ := Prod.mk.inj (Except.ok.inj he)
  exact sendable_of_fromProto htxs

def refusingEnv : Env :=
  { sampleEnv with
    verifyProof := fun _ _ ↦ .ok false
    verifyProof_throw := fun _ _ _ h ↦ by cases h }

theorem sampleLoaded_judges :
    Judges refusingEnv byteEnc sampleLibraries sampleLoaded.1.header sampleLoaded.2 := by
  have hrefused : ∀ comp ∈ sampleLoaded.2, (bindAndVerify byteEnc sampleLibraries comp
      (bindingData sampleLoaded.1.header 0)).toOption = some false := by decide +kernel
  have hlen : sampleLoaded.2.length = 1 := by decide +kernel
  intro i comp k hi _
  obtain rfl : i = 0 := by
    have := (List.getElem?_eq_some_iff.mp hi).1
    omega
  exact (of_toOption (hrefused comp (List.mem_of_getElem? hi))).symm

theorem sampleLoaded_checkable : ∀ comp ∈ sampleLoaded.2, comp.proof ≠ [] ∧ Checkable comp := by
  have hparts : ∀ comp ∈ sampleLoaded.2, comp.proof ≠ [] ∧
      comp.computation.ciphertexts.length ≠ 0 ∧ comp.lastRes.isSome = true ∧
        (ast comp.computation.expression).toOption.any (fun tree ↦
          Evaluable comp.computation.ciphertexts.length
            (readTree tree.1.nodes (tree.1.nodeCounter + 1) (some tree.2))) = true := by
    decide +kernel
  intro comp hcomp
  obtain ⟨hproof, hcts, hres, htree⟩ := hparts comp hcomp
  refine ⟨hproof, mt List.length_eq_zero_iff.mpr hcts, hres, ?_⟩
  cases hast : ast comp.computation.expression with
  | error e =>
    rw [hast] at htree
    cases htree
  | ok tree =>
    rw [hast] at htree
    exact ⟨tree.1, tree.2, rfl, of_decide_eq_true htree⟩

def outputless : ProtoBlock where
  header := {
    prevBlockHash := zeros 32
    merkleRoot := zeros 32
    timestamp := 1
    difficulty := 1
    computations := [] }
  transactions := [⟨[], []⟩]

def outputlessBlock : Block where
  header := {
    prevBlockHeader := none
    ownPrevHash := zeros 32
    merkleRoot := zeros 32
    timestamp := 1
    difficulty := 1
    computations := [] }
  transactions := [⟨[], []⟩]

theorem outputless_read : Block.fromProto byteDes outputless = .ok (outputlessBlock, []) := rfl

end Verdict

end FheBlockchain.Chain.Verdicts
