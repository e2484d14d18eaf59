import FheBlockchain.Chain.AppendFacts

namespace FheBlockchain.Chain.Exceptions

open Core.Transactions Core.Blocks Store.Pools Validation ValidationFacts Manager AppendFacts
open Store.Chainstate hiding M addBlock
open Store.ChainstateEffects
open Store.Coins hiding M
open Library.Execution Library.Results

variable {α β : Type} {x : Result α} {f : α → Result β}

def unsignedInputs : Exception := .invalidArgument "Cannot compute TXID with unsigned inputs."

def insufficientInputs : Exception := .invalidArgument "Insufficient inputs provided."

/-- The exceptions that are thrown below `append_block`. -/
def Raised (e : Exception) : Prop := e ≠ cannotAttach ∧ e ≠ blockNotFound

theorem raised_unsignedInputs : Raised unsignedInputs := by
  constructor <;> simp [cannotAttach, blockNotFound, unsignedInputs]

theorem raised_insufficientInputs : Raised insufficientInputs := by
  constructor <;> simp [cannotAttach, blockNotFound, insufficientInputs]

theorem raised_proofNotFound : Raised proofNotFound := by
  constructor <;> simp [cannotAttach, blockNotFound, proofNotFound]

theorem cannotAttach_not_raised : ¬ Raised cannotAttach := fun h ↦ h.1 rfl

theorem blockNotFound_not_raised : ¬ Raised blockNotFound := fun h ↦ h.2 rfl

def NoThrow (x : Result α) : Prop := ∀ e, x ≠ .error (.throw e)

instance (x : Result α) : Decidable (NoThrow x) :=
  match x with
  | .ok _ => .isTrue fun _ h ↦ by cases h
  | .error (.throw e) => .isFalse fun h ↦ h e rfl
  | .error (.abort _) => .isTrue fun _ h ↦ by cases h

theorem noThrow_ok (a : α) : NoThrow (.ok a : Result α) := by
  intro e h
  contradiction

theorem noThrow_abort (u : Undefined) : NoThrow (.error (.abort u) : Result α) := by
  intro e h
  cases h

theorem noThrow_bind (hx : NoThrow x) (hf : ∀ a, x = .ok a → NoThrow (f a)) :
    NoThrow (x >>= f) := by
  cases x with
  | ok a => exact hf a rfl
  | error e =>
    intro e' h
    exact hx e' (by cases h; rfl)

theorem bind_throw {e : Exception} (h : x >>= f = .error (.throw e)) :
    x = .error (.throw e) ∨ ∃ a, x = .ok a ∧ f a = .error (.throw e) := by
  cases x with
  | ok a => exact .inr ⟨a, rfl, h⟩
  | error e' =>
    cases h
    exact .inl rfl

theorem noThrow_mapM {g : β → Result α} {bs : List β} (h : ∀ b ∈ bs, NoThrow (g b)) :
    NoThrow (bs.mapM g) := by
  induction bs with
  | nil => exact noThrow_ok []
  | cons b bs ih =>
    rw [List.mapM_cons]
    refine noThrow_bind (h b (by simp)) fun a _ ↦ ?_
    exact noThrow_bind (ih fun b' hb' ↦ h b' (by simp [hb'])) fun _ _ ↦ noThrow_ok _

theorem noThrow_foldlM {g : α → β → Result α} {bs : List β} {a : α}
    (h : ∀ a b, NoThrow (g a b)) : NoThrow (bs.foldlM g a) := by
  induction bs generalizing a with
  | nil => exact noThrow_ok a
  | cons b bs ih =>
    rw [List.foldlM_cons]
    exact noThrow_bind (h a b) fun _ _ ↦ ih

theorem noThrow_copyTo (buffer src : Bytes) (offset : ℕ) : NoThrow (copyTo buffer offset src) := by
  rw [copyTo]
  split_ifs
  · exact noThrow_ok _
  · exact noThrow_abort _

theorem noThrow_serialize (tx : Transaction) : NoThrow tx.serialize := by
  refine noThrow_bind (noThrow_mapM fun inp _ ↦ ?_) fun _ _ ↦ noThrow_ok _
  refine noThrow_bind (noThrow_copyTo _ _ _) fun _ _ ↦ ?_
  refine noThrow_bind (noThrow_copyTo _ _ _) fun _ _ ↦ ?_
  exact noThrow_bind (noThrow_copyTo _ _ _) fun _ _ ↦ noThrow_copyTo _ _ _

abbrev AllSigned (tx : Transaction) : Prop := tx.inputs.all TransactionInput.isSigned = true

variable {na : Sodium} {tx : Transaction}

theorem noThrow_txid (h : AllSigned tx) : NoThrow (tx.txid na) := by
  rw [Transaction.txid, if_pos h]
  exact noThrow_bind (noThrow_serialize tx) fun _ _ ↦ noThrow_ok _

theorem txid_throw {e : Exception} (h : tx.txid na = .error (.throw e)) :
    e = unsignedInputs ∧ ¬ AllSigned tx := by
  by_cases hs : AllSigned tx
  · exact absurd h (noThrow_txid hs e)
  · rw [Transaction.txid, if_neg hs] at h
    cases h
    exact ⟨rfl, hs⟩

theorem noThrow_verifyInputs (inps : List (TransactionInput × PublicKey)) (idx : ℕ) :
    NoThrow (tx.verifyInputs na inps idx) := by
  induction inps generalizing idx with
  | nil => exact noThrow_ok _
  | cons inp inps ih =>
    rw [Transaction.verifyInputs]
    refine noThrow_bind (noThrow_serialize _) fun _ _ ↦ ?_
    split_ifs
    · exact ih _
    · exact noThrow_ok _

theorem noThrow_validateTransaction (pubkeys : List PublicKey) (amounts : List UInt64) :
    NoThrow (tx.validateTransaction na pubkeys amounts) := by
  rw [Transaction.validateTransaction]
  split_ifs
  · exact noThrow_ok _
  · exact noThrow_ok _
  · exact noThrow_verifyInputs _ _

theorem validateTransaction_true {pubkeys : List PublicKey} {amounts : List UInt64}
    (h : tx.validateTransaction na pubkeys amounts = .ok true) :
    AllSigned tx ∧ ∃ fee, tx.fee amounts = .ok fee := by
  rw [Transaction.validateTransaction] at h
  split_ifs at h with hs hlt
  · simp at h
  · simp at h
  · exact ⟨by simpa using hs, _, by rw [Transaction.fee, if_neg hlt]⟩

variable {env : Env} {cfg : Config} {cs : MemChainstate}

theorem noThrow_checkTxs (check : BlockCheck) (txs : List Transaction) :
    NoThrow (checkTxs env cs check txs) := by
  induction txs generalizing check with
  | nil => exact noThrow_ok _
  | cons tx txs ih =>
    rw [checkTxs]
    refine noThrow_bind ?_ fun checked _ ↦ ?_
    · rw [checkTx]
      split
      · exact noThrow_ok _
      · refine noThrow_bind (noThrow_validateTransaction _ _) fun valid hvalid ↦ ?_
        cases valid with
        | false => exact noThrow_ok _
        | true =>
          obtain ⟨hs, fee, hfee⟩ := validateTransaction_true hvalid
          refine noThrow_bind ?_ fun _ _ ↦ noThrow_bind (noThrow_txid hs) fun _ _ ↦ noThrow_ok _
          rw [hfee]
          exact noThrow_ok _
    · cases checked with
      | none => exact noThrow_ok _
      | some check => exact ih check

theorem noThrow_getEpoch (height : UInt32) : NoThrow (getEpoch cfg height) := by
  rw [getEpoch]
  split_ifs
  · exact noThrow_abort _
  · exact noThrow_ok _

theorem noThrow_rewardForHeight (height : UInt32) : NoThrow (rewardForHeight cfg height) := by
  refine noThrow_bind (noThrow_getEpoch _) fun epoch _ ↦ ?_
  split_ifs
  · exact noThrow_ok _
  · exact noThrow_abort _

theorem noThrow_headerAt (chain : List BlockHeader) (idx : UInt32) :
    NoThrow (headerAt chain idx) := by
  rw [headerAt]
  split
  · exact noThrow_ok _
  · exact noThrow_abort _

theorem noThrow_getDifficultyForHeight (chain : List BlockHeader) (height : UInt32) :
    NoThrow (getDifficultyForHeight env cfg chain height) := by
  refine noThrow_bind (noThrow_getEpoch _) fun _ _ ↦ noThrow_foldlM fun _ _ ↦ ?_
  refine noThrow_bind (noThrow_headerAt _ _) fun _ _ ↦ ?_
  exact noThrow_bind (noThrow_headerAt _ _) fun _ _ ↦ noThrow_ok _

variable {header : BlockHeader}

theorem verifyComputations_raised {idx : ℕ} {comps : List Computation} {e : Exception}
    (h : verifyComputations env header idx comps = .error (.throw e)) : Raised e := by
  induction comps generalizing idx with
  | nil => cases h
  | cons comp comps ih =>
    rcases bind_throw h with hproof | ⟨-, -, h⟩
    · rw [Computation.getProof] at hproof
      split_ifs at hproof
      cases hproof
      exact raised_proofNotFound
    · rcases bind_throw h with hverify | ⟨verdict, -, h⟩
      · exact env.verifyProof_throw _ _ _ hverify
      · cases verdict with
        | false => simp [pure, Except.pure] at h
        | true => exact ih h

theorem validateHeader_throw {chain : List BlockHeader} {height : UInt32} {e : Exception}
    (h : validateHeaderUnsafe env cfg chain header height = .error (.throw e)) :
    verifyComputations env header 0 header.computations = .error (.throw e) := by
  rcases bind_throw h with hd | ⟨d, -, h⟩
  · exact absurd hd (noThrow_getDifficultyForHeight _ _ _)
  · split_ifs at h
    · simp [pure, Except.pure] at h
    · simp [pure, Except.pure] at h
    · simp [pure, Except.pure] at h
    · exact h

theorem validateBlock_throw {chain : List BlockHeader} {block : Block} {height : UInt32}
    {e : Exception} (h : validateBlock env cfg chain cs block height = .error (.throw e)) :
    (e = unsignedInputs ∧ ∃ cb ∈ block.transactions.head?, ¬ AllSigned cb) ∨
      verifyComputations env block.header 0 block.header.computations = .error (.throw e) := by
  rw [validateBlock] at h
  split at h
  · cases h
  next cb rest htxs =>
    rcases bind_throw h with hcb | ⟨cbid, -, h'⟩
    · obtain ⟨rfl, hs⟩ := txid_throw hcb
      exact .inl ⟨rfl, cb, by simp [htxs], hs⟩
    rcases bind_throw h' with hchecks | ⟨check, -, h⟩
    · exact absurd hchecks (noThrow_checkTxs _ _ _)
    cases check with
    | none => simp [pure, Except.pure] at h
    | some check =>
      rcases bind_throw h with hreward | ⟨reward, -, h⟩
      · exact absurd hreward (noThrow_rewardForHeight _ e)
      rcases bind_throw h with hfirst | ⟨outp, -, h⟩
      · rw [firstOutput] at hfirst
        split at hfirst <;> cases hfirst
      split_ifs at h
      · simp [pure, Except.pure] at h
      · simp [pure, Except.pure] at h
      · rcases bind_throw h with hheader | ⟨valid, -, h⟩
        · exact .inr (validateHeader_throw hheader)
        · cases valid <;> simp [pure, Except.pure] at h

theorem validateBlock_raised {chain : List BlockHeader} {block : Block} {height : UInt32}
    {e : Exception} (h : validateBlock env cfg chain cs block height = .error (.throw e)) :
    Raised e := by
  rcases validateBlock_throw h with ⟨rfl, -⟩ | h
  · exact raised_unsignedInputs
  · exact verifyComputations_raised h

theorem txid_raised {e : Exception} (h : tx.txid na = .error (.throw e)) : Raised e := by
  rw [(txid_throw h).1]
  exact raised_unsignedInputs

theorem txidForOutputs_raised {e : Exception} (h : txidForOutputs na tx = .error (.throw e)) :
    Raised e := by
  rw [txidForOutputs] at h
  split_ifs at h
  exact txid_raised h

theorem fee_raised {p : PooledTx} {e : Exception} (h : p.fee = .error (.throw e)) : Raised e := by
  rw [PooledTx.fee, Transaction.fee] at h
  split_ifs at h
  cases h
  exact raised_insufficientInputs

def Has (env : Env) (store : MemBlockStore) (header : BlockHeader) : Prop :=
  (store.lookup (header.hash env.toSodium)).isSome

theorem Has.getBlock {store : MemBlockStore} (h : Has env store header) :
    ∃ block, store.getBlock (header.hash env.toSodium) = .ok block := by
  obtain ⟨block, hb⟩ := Option.isSome_iff_exists.mp h
  exact ⟨block, by rw [MemBlockStore.getBlock, hb]⟩

section Parts

variable {s : ChainManager}

theorem evict_raised (p : PooledTx) (pool : MemPool) :
    Post (MemPool.evict na p) pool (fun _ _ ↦ True) (fun e _ ↦ Raised e) := by
  refine post_bind_ofExcept (fun _ _ ↦ ?_) fun _ h ↦ txid_raised h
  refine post_bind_modify.mpr (post_bind_ofExcept (fun _ _ ↦ ?_) fun _ h ↦ fee_raised h)
  trivial

theorem spendBlock_raised (na : Sodium) (txs : List PooledTx) (pool : MemPool) :
    Post (MemPool.spendBlock na txs) pool (fun _ _ ↦ True) (fun e _ ↦ Raised e) := by
  have hloop {γ : Type} {f : γ → MemPool.M Unit}
      (hf : ∀ a pool, Post (f a) pool (fun _ _ ↦ True) fun e _ ↦ Raised e) (as : List γ)
      (pool : MemPool) : Post (as.forM f) pool (fun _ _ ↦ True) fun e _ ↦ Raised e :=
    post_forM (I := fun _ ↦ True) (fun a _ pool _ ↦ hf a pool) trivial
  refine hloop (fun p pool ↦ ?_) _ pool
  refine Post.bind (R := fun _ _ ↦ True) ?_ fun _ _ _ ↦ trivial
  refine post_bind_ofExcept (fun txid _ ↦ post_bind_get.mpr ?_) fun _ h ↦ txid_raised h
  split_ifs
  · refine (evict_raised p pool).bind fun _ pool _ ↦ ?_
    refine (hloop (fun outp pool ↦ ?_) p.tx.outputs pool).bind fun _ _ _ ↦ trivial
    refine post_bind_get.mpr ?_
    split
    · trivial
    · exact (hloop evict_raised _ pool).bind fun _ _ _ ↦ trivial
  · trivial

theorem addBlock_throwless {block : Block} (height : UInt32) (cs : MemChainstate)
    (hids : ∀ tx ∈ block.transactions, ∃ txid, tx.txid na = .ok txid) :
    Post (Store.Chainstate.addBlock na block height) cs (fun _ _ ↦ True) (fun _ _ ↦ False) := by
  refine post_forM (I := fun _ ↦ True) (fun tx htx cs _ ↦ ?_) trivial
  obtain ⟨txid, hid⟩ := txidForOutputs_ok (hids tx.2 (mem_of_mem_flagged htx))
  refine post_bind_ofExcept (fun _ _ ↦ post_bind_modify.mpr ?_) fun e he ↦ by simp [hid] at he
  split_ifs
  · trivial
  · refine post_forM (I := fun _ ↦ True) (fun inp _ cs _ ↦ post_bind_get.mpr ?_) trivial
    refine Post.bind (R := fun _ _ ↦ True) trivial fun _ _ _ ↦ ?_
    split_ifs <;> trivial

theorem rewindBlock_raised (block : Block) (cs : MemChainstate) :
    Post (rewindBlock na block) cs (fun _ _ ↦ True) (fun e _ ↦ Raised e) := by
  refine post_forM (I := fun _ ↦ True) (fun tx _ cs _ ↦ ?_) trivial
  refine post_bind_ofExcept (fun txid _ ↦ post_bind_modify.mpr ?_) fun _ h ↦ txidForOutputs_raised h
  split_ifs
  · trivial
  · refine post_forM (I := fun _ ↦ True) (fun inp _ cs _ ↦ post_bind_get.mpr ?_) trivial
    split <;> trivial

theorem rewindHeaders_raised (headers : List BlockHeader) (s : ChainManager)
    (hhas : ∀ h ∈ headers, Has env s.blockStore h) :
    Post (rewindHeaders env headers) s (fun _ t ↦ t = { s with chainstate := t.chainstate })
      (fun e t ↦ Raised e ∧ t = { s with chainstate := t.chainstate }) := by
  refine post_forM (I := fun t : ChainManager ↦ t = { s with chainstate := t.chainstate })
    (fun header hmem t ht ↦ post_bind_get.mpr ?_) rfl
  obtain ⟨block, hb⟩ := (hhas header hmem).getBlock
  rw [ht] at ⊢
  rw [hb]
  exact post_bind_ofExcept_ok.mpr (post_focus ((rewindBlock_raised block _).mono
    (fun _ _ _ ↦ rfl) fun _ _ he ↦ ⟨he, rfl⟩))

theorem filterBlock_raised (block : Block) (w : Wallet) :
    Post (filterBlock na block) w (fun _ _ ↦ True) (fun e _ ↦ Raised e) := by
  refine post_forM (I := fun _ ↦ True) (fun tx _ w _ ↦ ?_) trivial
  refine post_forM (I := fun _ ↦ True) (fun outp _ w _ ↦ post_bind_get.mpr ?_) trivial
  split_ifs
  · exact post_bind_ofExcept (fun _ _ ↦ trivial) fun _ h ↦ txid_raised h
  · trivial

theorem rescan_raised (env : Env) (chain : List BlockHeader) (store : MemBlockStore) (w : Wallet)
    (hhas : ∀ h ∈ chain, Has env store h) :
    Post (rescan env.toSodium chain store) w (fun _ _ ↦ True) (fun e _ ↦ Raised e) := by
  refine post_bind_modify.mpr (post_forM (I := fun _ ↦ True) (fun header hmem w _ ↦ ?_) trivial)
  obtain ⟨block, hb⟩ := (hhas header hmem).getBlock
  rw [hb]
  exact post_bind_ofExcept_ok.mpr (post_bind_modify.mpr (filterBlock_raised block _))

end Parts

section Append

variable {s : ChainManager} {block : Block} {v : Option (List (List UInt64))}

/-- A block whose identifiers can be computed: its TXIDs and, as the proofs are
there, its hash. -/
structure Identified (na : Sodium) (block : Block) : Prop where
  txids : ∀ tx ∈ block.transactions, ∃ txid, tx.txid na = .ok txid
  proven : Proven block

instance (na : Sodium) (block : Block) : Decidable (Identified na block) :=
  decidable_of_iff ((∀ tx ∈ block.transactions, (tx.txid na).isOk = true) ∧ Proven block)
    ⟨fun h ↦ ⟨fun tx htx ↦ isOk_iff.mp (h.1 tx htx), h.2⟩,
      fun h ↦ ⟨fun tx htx ↦ isOk_iff.mpr (h.txids tx htx), h.proven⟩⟩

theorem identified_of_validated {txs : List PooledTx} {chain : List BlockHeader}
    {cs : MemChainstate} {height : UInt32}
    (h : validateBlock env cfg chain cs block height = .ok (some txs)) :
    Identified env.toSodium block :=
  ⟨(takeable_of_validated h).ids, proven_of_validated h⟩

theorem identified_of_takeable {cs : MemChainstate} (h : Takeable env.toSodium cs block) :
    Identified env.toSodium block := ⟨h.ids, h.proven⟩

theorem raised_of_refused {e : Exception} (h : Refused env cfg s block v e) :
    Raised e ∨ e = cannotAttach ∧ ∃ head, s.mainChain.headerChain.getLast? = some head ∧
      block.header.prevHash ≠ head.hash env.toSodium := by
  rcases h with h | h
  · exact .inr h
  · cases v with
    | some amounts => cases h
    | none => exact .inl (validateBlock_raised h)

/-- The outcomes of an append, whatever it makes of the chainstate and of the
memory pool. -/
theorem post_append_identified {Q : Bool → ChainManager → Prop}
    {E : Exception → ChainManager → Prop} (hids : v.isSome → Identified env.toSodium block)
    (hfalse : Q false s) (hthrow : ∀ e, Refused env cfg s block v e → E e s)
    (hready : ∀ head txs cs pool, Ready env cfg s block v head txs →
      Q true (extended env s (link env head block) cs pool) ∧
      ∀ e, Raised e → E e (recorded env s (link env head block) cs pool)) :
    Post (appendBlock env cfg block v) s Q E := by
  rcases appendBlock_cases s block v with ⟨e, he, href⟩ | hf | ⟨head, txs, hr, happ⟩
  · rw [Post, he]
    cases e with
    | throw e => exact hthrow e (href e rfl)
    | abort u => trivial
  · rw [Post, hf]
    exact hfalse
  · have hids' : Identified env.toSodium block := by
      cases v with
      | some amounts => exact hids rfl
      | none => exact identified_of_validated hr.checked
    have hadd := addBlock_throwless (UInt32.ofNat s.mainChain.headerChain.length) s.chainstate
      hids'.txids
    rw [Post] at hadd
    rw [Post, happ]
    simp only [bind, EStateM.bind, extendMain_eq, addBlock_link, if_pos hids'.proven]
    cases hcs : Store.Chainstate.addBlock env.toSodium block
        (UInt32.ofNat s.mainChain.headerChain.length) s.chainstate with
    | error e cs =>
      rw [hcs] at hadd
      cases e with
      | throw e => exact absurd hadd not_false
      | abort u => trivial
    | ok _ cs =>
      have hpool := spendBlock_raised env.toSodium txs s.memPool
      rw [Post] at hpool
      cases hspend : MemPool.spendBlock env.toSodium txs s.memPool with
      | ok _ pool => exact (hready head txs cs pool hr).1
      | error e pool =>
        rw [hspend] at hpool
        cases e with
        | throw e => exact (hready head txs cs pool hr).2 e hpool
        | abort u => trivial

end Append

end FheBlockchain.Chain.Exceptions
