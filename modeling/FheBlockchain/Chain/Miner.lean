import FheBlockchain.Chain.Node

namespace FheBlockchain.Chain.Miner

open Core.Transactions Core.Blocks Store.Pools Validation ValidationFacts Manager Accepted Node
open Store.Chainstate hiding M addBlock
open Store.Coins hiding M
open Library.Results

/-- What mining takes from outside: the order in which the map of computations
is walked through, and the output and the proof of a computation that is bound
to the given data. Told to stop, it has none. -/
structure Rig where
  listing : MemCompStore → List Computation
  prove : (data : Bytes) → Computation → Option (Bytes × Bytes)

variable (env : Env) (cfg : Config) (rig : Rig)

/-- The computations with their proofs, each bound to the header without proofs
and to its number. The proofs are left in the stored computations too, where
nothing reads them. -/
def generateProofs (header : BlockHeader) : ℕ → List Computation → Option (List Computation)
  | _, [] => some []
  | idx, comp :: comps =>
    match rig.prove (bindingData header idx) comp with
    | none => none
    | some (output, proof) => (generateProofs header (idx + 1) comps).map
        ({ comp with output := output, proof := proof } :: ·)

abbrev Mined := Block × List (List UInt64)

def mine (prev : BlockHeader) (height difficulty : UInt32) (reward : UInt64) (txs : List PooledTx)
    (comps : List Computation) (pubkey : PublicKey) (now : Int64) : Result (Option Mined) := do
  let fees ← txs.mapM PooledTx.fee
  let cb := coinbaseTransaction pubkey (reward + Transaction.total fees) height
  let block ← Block.mined env.toSodium prev difficulty comps now (cb :: txs.map PooledTx.tx)
  match generateProofs rig block.header 0 comps with
  | none => return none
  | some comps =>
    let block := { block with header := { block.header with computations := comps } }
    let _ ← block.computeHash env.toSodium
    return some (block, [] :: txs.map PooledTx.inAmounts)

/-- The states that the reads of a mining round find, one after the other. -/
structure Reads where
  memPool : ChainManager
  target : ChainManager
  difficulty : ChainManager
  reward : ChainManager
  computations : ChainManager
  head : ChainManager
  height : ChainManager

def Reads.at (s : ChainManager) : Reads := ⟨s, s, s, s, s, s, s⟩

/-- `ChainManager::start_mining` and the block it leaves behind, if any. -/
def startMining (s : Reads) (now : Int64) : Result (Option Mined) := do
  let txs ← s.memPool.memPool.getTop cfg.defaultTxPerBlock
  let difficulty ← getDifficultyForHeight env cfg s.difficulty.mainChain.headerChain
    (currentHeight s.target.mainChain.headerChain + 1)
  let reward ← rewardForHeight cfg (currentHeight s.reward.mainChain.headerChain + 1)
  let comps :=
    MemCompStore.collectComputations (rig.listing s.computations.compStore) difficulty
  if comps = [] then return none
  let head ← backOf s.head.mainChain.headerChain
  mine env rig head (currentHeight s.height.mainChain.headerChain + 1) difficulty reward txs comps
    s.height.wallet.publicKey now

variable {env cfg rig}

def Proves (env : Env) (rig : Rig) : Prop :=
  ∀ data comp output proof, rig.prove data comp = some (output, proof) →
    proof ≠ [] ∧ env.verifyProof data { comp with output := output, proof := proof } = .ok true

variable {header : BlockHeader} {comps comps' : List Computation} {target : UInt32} {idx : ℕ}

section Proofs

theorem generateProofs_keeps (h : generateProofs rig header idx comps = some comps') :
    comps'.map Computation.body = comps.map Computation.body ∧
      comps'.map Computation.difficulty = comps.map Computation.difficulty := by
  induction comps generalizing idx comps' with
  | nil =>
    obtain rfl := Option.some.inj h
    exact ⟨rfl, rfl⟩
  | cons comp comps ih =>
    rw [generateProofs] at h
    split at h
    · contradiction
    · obtain ⟨rest, hrest, rfl⟩ := Option.map_eq_some_iff.mp h
      obtain ⟨hbody, hdiff⟩ := ih hrest
      exact ⟨by simp [hbody], by simp [hdiff]⟩

theorem bindingData_proved (h : comps'.map Computation.body = header.computations.map Computation.body)
    (idx : ℕ) : bindingData { header with computations := comps' } idx = bindingData header idx := by
  have hsize : sizeBytes comps' = sizeBytes header.computations := by
    rw [sizeBytes, sizeBytes, show comps'.length = header.computations.length by
      simpa using congrArg List.length h]
  have hcomps (cs : List Computation) :
      (cs.map fun comp ↦ sizeBytes (comp.serialize false) ++ comp.serialize false) =
        (cs.map Computation.body).map fun body ↦ sizeBytes body ++ body := by
    simp [Computation.serialize]
  have hrest : { header with computations := comps' }.serializeRest false =
      header.serializeRest false := by
    simp only [BlockHeader.serializeRest, hcomps, h, hsize, Bool.false_eq_true, if_false]
  rw [bindingData, bindingData, BlockHeader.serialize, BlockHeader.serialize, hrest]
  rfl

theorem verifyComputations_proved (hp : Proves env rig) {header' : BlockHeader}
    (hdata : ∀ i, bindingData header' i = bindingData header i)
    (h : generateProofs rig header idx comps = some comps') :
    verifyComputations env header' idx comps' = .ok true := by
  induction comps generalizing idx comps' with
  | nil =>
    obtain rfl := Option.some.inj h
    rfl
  | cons comp comps ih =>
    rw [generateProofs] at h
    split at h
    · contradiction
    next output proof hproof =>
      obtain ⟨rest, hrest, rfl⟩ := Option.map_eq_some_iff.mp h
      obtain ⟨hne, hverified⟩ := hp _ _ _ _ hproof
      rw [verifyComputations, Computation.getProof, if_neg hne, hdata, hverified]
      exact ih hrest

theorem totalDepth_eq (comps : List Computation) :
    totalDepth comps = (comps.map Computation.difficulty).foldl (· + ·) 0 := by
  rw [totalDepth, List.foldl_map]

end Proofs

theorem collectFrom_reaches {total : UInt32} {res order : List Computation}
    (htotal : totalDepth res = total)
    (h : MemCompStore.collectFrom target total res order ≠ []) :
    target ≤ totalDepth (MemCompStore.collectFrom target total res order) := by
  induction order generalizing total res with
  | nil => exact absurd rfl h
  | cons comp order ih =>
    have hstep : totalDepth (res ++ [comp]) = total + comp.difficulty := by
      simp [totalDepth, ← htotal]
    rw [MemCompStore.collectFrom] at h ⊢
    split_ifs at h ⊢ with hle
    · rwa [hstep]
    · exact ih hstep h

section Agreement

variable {s : ChainManager} {block : Block} {amounts : List (List UInt64)} {prev : BlockHeader}
variable {height difficulty : UInt32}
variable {reward : UInt64} {txs : List PooledTx} {pubkey : PublicKey} {now : Int64}

structure Composed (env : Env) (rig : Rig) (prev : BlockHeader) (difficulty : UInt32)
    (comps : List Computation) (cb : Transaction) (txs : List PooledTx) (now : Int64)
    (block : Block) : Prop where
  transactions : block.transactions = cb :: txs.map PooledTx.tx
  root : ∃ cbid txids, cb.txid env.toSodium = .ok cbid ∧
    (txs.map PooledTx.tx).mapM (Transaction.txid env.toSodium) = .ok txids ∧
    block.header.merkleRoot = Merkle.computeRoot env.toSodium (txids.length + 1) (cbid :: txids)
  prevHash : block.header.prevHash = prev.hash env.toSodium
  timestamp : block.header.timestamp = now
  proven : Proven block
  difficulty_eq : block.header.difficulty = difficulty
  proved : ∃ header, generateProofs rig header 0 comps = some block.header.computations ∧
    ∀ idx, bindingData block.header idx = bindingData header idx

theorem mine_ok
    (h : mine env rig prev height difficulty reward txs comps pubkey now =
      .ok (some (block, amounts))) :
    amounts = [] :: txs.map PooledTx.inAmounts ∧ ∃ fees, txs.mapM PooledTx.fee = .ok fees ∧
      Composed env rig prev difficulty comps
        (coinbaseTransaction pubkey (reward + Transaction.total fees) height) txs now block := by
  simp only [mine, bind_eq_ok] at h
  obtain ⟨fees, hfees, mined, hmined, h⟩ := h
  split at h
  · cases h
  next proved hproved =>
  simp only [bind_eq_ok] at h
  obtain ⟨hash, hhash, h⟩ := h
  obtain ⟨rfl, rfl⟩ := Prod.mk.inj (Option.some.inj (Except.ok.inj h))
  refine ⟨rfl, fees, hfees, ?_⟩
  rw [Block.mined, bind_eq_ok] at hmined
  obtain ⟨txids, htxids, he⟩ := hmined
  obtain rfl := Except.ok.inj he
  rw [List.mapM_cons, bind_eq_ok] at htxids
  obtain ⟨cbid, hcbid, htxids⟩ := htxids
  obtain ⟨rest, hrest, he⟩ := bind_eq_ok.mp htxids
  obtain rfl := Except.ok.inj he
  exact ⟨rfl, ⟨cbid, rest, hcbid, hrest, by simp⟩, rfl, rfl, proven_of_computeHash hhash, rfl, _, hproved,
    bindingData_proved (generateProofs_keeps hproved).1⟩

theorem header_agrees {chain : List BlockHeader} {cb : Transaction} {order : List Computation}
    (hp : Proves env rig)
    (hdiff : getDifficultyForHeight env cfg chain height = .ok difficulty)
    (hne : MemCompStore.collectComputations order difficulty ≠ [])
    (hb : Composed env rig prev difficulty (MemCompStore.collectComputations order difficulty) cb
      txs now block) :
    validateHeaderUnsafe env cfg chain block.header height = .ok true := by
  obtain ⟨header, hproved, hdata⟩ := hb.proved
  have hdepth : ¬ totalDepth block.header.computations < difficulty := by
    rw [totalDepth_eq, (generateProofs_keeps hproved).2, ← totalDepth_eq]
    exact UInt32.not_lt.mpr (collectFrom_reaches rfl hne)
  have hcomps : block.header.computations ≠ [] := by
    intro hnil
    have hbody := (generateProofs_keeps hproved).1
    rw [hnil] at hbody
    exact hne (List.map_eq_nil_iff.mp hbody.symm)
  rw [validateHeaderUnsafe, bind_eq_ok]
  refine ⟨difficulty, hdiff, ?_⟩
  rw [if_neg (not_not.mpr hb.difficulty_eq.symm), if_neg hcomps, if_neg hdepth]
  exact verifyComputations_proved hp hdata hproved

theorem startMining_ok {r : Reads}
    (h : startMining env cfg rig r now = .ok (some (block, amounts))) :
    ∃ txs difficulty reward head fees, amounts = [] :: txs.map PooledTx.inAmounts ∧
      r.memPool.memPool.getTop cfg.defaultTxPerBlock = .ok txs ∧
      getDifficultyForHeight env cfg r.difficulty.mainChain.headerChain
        (currentHeight r.target.mainChain.headerChain + 1) = .ok difficulty ∧
      rewardForHeight cfg (currentHeight r.reward.mainChain.headerChain + 1) = .ok reward ∧
      backOf r.head.mainChain.headerChain = .ok head ∧ txs.mapM PooledTx.fee = .ok fees ∧
      MemCompStore.collectComputations (rig.listing r.computations.compStore) difficulty ≠ [] ∧
      Composed env rig head difficulty
        (MemCompStore.collectComputations (rig.listing r.computations.compStore) difficulty)
        (coinbaseTransaction r.height.wallet.publicKey (reward + Transaction.total fees)
          (currentHeight r.height.mainChain.headerChain + 1)) txs now block := by
  simp only [startMining, bind_eq_ok] at h
  obtain ⟨txs, htop, difficulty, hdiff, reward, hreward, h⟩ := h
  split_ifs at h with hne
  · cases h
  rw [bind_eq_ok] at h
  obtain ⟨head, hhead, h⟩ := h
  obtain ⟨hamounts, fees, hfees, hb⟩ := mine_ok h
  exact ⟨txs, difficulty, reward, head, fees, hamounts, htop, hdiff, hreward, hhead, hfees, hne, hb⟩

def Charges (env : Env) (cs : MemChainstate) (p : PooledTx) (fee : UInt64) : Prop :=
  ∃ recs, Found cs p.tx.inputs recs ∧
    p.tx.validateTransaction env.toSodium (recs.map UTXORecord.pubkey)
      (recs.map UTXORecord.amount) = .ok true ∧
    p.tx.fee (recs.map UTXORecord.amount) = .ok fee

/-- The transactions at the top of the pool spend different outputs, `add_tx`
would still take each of them, and the reward with the fees, which miner and
validator both add to it, does not wrap around. -/
def Minable (env : Env) (cfg : Config) (s : ChainManager) : Prop :=
  ∃ txs reward fees charged, s.memPool.getTop cfg.defaultTxPerBlock = .ok txs ∧
    rewardForHeight cfg (currentHeight s.mainChain.headerChain + 1) = .ok reward ∧
    txs.mapM PooledTx.fee = .ok fees ∧ (txs.flatMap fun p ↦ keysOf p.tx).Nodup ∧
    List.Forall₂ (Charges env s.chainstate) txs charged ∧
    reward ≤ reward + Transaction.total fees + Transaction.total charged

theorem charges_of_checked {cs : MemChainstate} {cks : List CheckedTx}
    (h : List.Forall₂ (TxChecked env cs) (txs.map PooledTx.tx) cks) :
    List.Forall₂ (Charges env cs) txs (cks.map CheckedTx.fee) := by
  rw [List.forall₂_map_left_iff] at h
  rw [List.forall₂_map_right_iff]
  refine h.imp fun p c hc ↦ ?_
  obtain ⟨recs, hfound, hamounts, hvalid⟩ := hc.found
  have hfee := hc.fee_eq
  rw [PooledTx.fee, hc.tx_eq, hamounts] at hfee
  exact ⟨recs, hfound, hvalid, hfee⟩

theorem checked_of_charges {cs : MemChainstate} {charged : List UInt64} {txids : List Bytes}
    (h : List.Forall₂ (Charges env cs) txs charged)
    (hids : (txs.map PooledTx.tx).mapM (Transaction.txid env.toSodium) = .ok txids) :
    ∃ cks, List.Forall₂ (TxChecked env cs) (txs.map PooledTx.tx) cks ∧
      cks.map CheckedTx.fee = charged ∧ cks.map CheckedTx.txid = txids := by
  induction h generalizing txids with
  | nil =>
    obtain rfl := Except.ok.inj hids
    exact ⟨[], .nil, rfl, rfl⟩
  | @cons p fee txs charged hp _ ih =>
    rw [List.map_cons, List.mapM_cons, bind_eq_ok] at hids
    obtain ⟨txid, hid, hids⟩ := hids
    obtain ⟨rest, hrest, he⟩ := bind_eq_ok.mp hids
    obtain rfl := Except.ok.inj he
    obtain ⟨cks, hcks, hfees, htxids⟩ := ih hrest
    obtain ⟨recs, hfound, hvalid, hfee⟩ := hp
    exact ⟨⟨⟨p.tx, recs.map UTXORecord.amount⟩, txid, fee⟩ :: cks,
      .cons ⟨rfl, hid, hfee, recs, hfound, rfl, hvalid⟩ hcks, by simp [hfees], by simp [htxids]⟩

/-- The validator accepts what the miner makes of a state just when the
transactions at the top of the pool can be mined there. -/
theorem mined_accepted_iff (hp : Proves env rig)
    (h : startMining env cfg rig (.at s) now = .ok (some (block, amounts))) :
    (∃ checked, validateBlock env cfg s.mainChain.headerChain s.chainstate block
      (currentHeight s.mainChain.headerChain + 1) = .ok (some checked)) ↔ Minable env cfg s := by
  obtain ⟨txs, difficulty, reward, head, fees, -, htop, hdiff, hreward, -, hfees, hne, hb⟩ :=
    startMining_ok h
  constructor
  · rintro ⟨checked, hvalid⟩
    obtain ⟨cb, rest, cks, hc, -⟩ := validateBlock_some hvalid
    have htxs := hb.transactions.symm.trans hc.transactions
    obtain ⟨rfl, rfl⟩ := List.cons.inj htxs
    obtain ⟨reward', outp, hreward', houtp, hle⟩ := hc.reward
    obtain rfl := Except.ok.inj (hreward.symm.trans hreward')
    obtain rfl := Option.some.inj houtp
    refine ⟨txs, reward, fees, cks.map CheckedTx.fee, htop, hreward, hfees, ?_,
      charges_of_checked hc.checked, hle⟩
    simpa [List.flatMap_map] using hc.distinct
  · rintro ⟨txs', reward', fees', charged, htop', hreward', hfees', hnd, hcharged, hle⟩
    obtain rfl := Except.ok.inj (htop.symm.trans htop')
    obtain rfl := Except.ok.inj (hreward.symm.trans hreward')
    obtain rfl := Except.ok.inj (hfees.symm.trans hfees')
    obtain ⟨cbid, txids, hcbid, hids, hroot⟩ := hb.root
    obtain ⟨cks, hcks, rfl, rfl⟩ := checked_of_charges hcharged hids
    refine validateBlock_of_checked ⟨hb.transactions, ⟨cbid, hcbid⟩, hcks, ?_, ?_, ?_⟩ hcbid ?_
    · simpa [List.flatMap_map] using hnd
    · exact ⟨reward, _, hreward, rfl, hle⟩
    · exact header_agrees hp hdiff hne hb
    · rw [hroot, List.length_map]

end Agreement

section Sample

def sampleComputation : Computation := ⟨[], [], [], 1⟩

def sampleRig : Rig where
  listing _ := [sampleComputation]
  prove _ _ := some ([], [1])

theorem proves_sample : Proves sampleEnv sampleRig := by
  intro data comp output proof h
  obtain ⟨rfl, rfl⟩ := Prod.mk.inj (Option.some.inj h)
  exact ⟨by decide, rfl⟩

def spendGenesis (amount : UInt64) : Transaction where
  inputs := [{
    txid := ((coinbaseTransaction sampleKey 50 0).txid sampleEnv.toSodium).toOption.getD []
    vout := 0
    sig := []
    isSigned := true
    sigSize := 64 }]
  outputs := [{ amount := amount, publicKey := sampleKey }]

def roundAfter (txs : List Transaction) : Option (ChainManager × Mined × Bool) := do
  let t ← handleAll (fun _ _ ↦ True) sampleEnv sampleConfig
    (.computation sampleComputation :: txs.map .tx) sampleStart
  let mined ← (← (startMining sampleEnv sampleConfig sampleRig (.at t) 5).toOption)
  let verdict ← (validateBlock sampleEnv sampleConfig t.mainChain.headerChain t.chainstate mined.1
    (currentHeight t.mainChain.headerChain + 1)).toOption
  return (t, mined, verdict.isSome)

theorem roundAfter_some {txs : List Transaction} {t : ChainManager} {mined : Mined} {b : Bool}
    (h : roundAfter txs = some (t, mined, b)) :
    Run sampleEnv sampleConfig (fun _ _ ↦ True) sampleStart t ∧
      startMining sampleEnv sampleConfig sampleRig (.at t) 5 = .ok (some mined) ∧
      ∃ verdict, validateBlock sampleEnv sampleConfig t.mainChain.headerChain t.chainstate mined.1
        (currentHeight t.mainChain.headerChain + 1) = .ok verdict ∧ verdict.isSome = b := by
  simp only [roundAfter, Option.bind_eq_bind, Option.bind_eq_some_iff] at h
  obtain ⟨t', hrun, found, hfound, mined', rfl, verdict, hverdict, he⟩ := h
  cases he
  exact ⟨handleAll_run .start hrun, of_toOption hfound, verdict, of_toOption hverdict, rfl⟩

theorem mined_accepted_sample : ∃ t mined,
    Run sampleEnv sampleConfig (fun _ _ ↦ True) sampleStart t ∧
      startMining sampleEnv sampleConfig sampleRig (.at t) 5 = .ok (some mined) ∧
      Minable sampleEnv sampleConfig t := by
  have hround : (roundAfter [spendGenesis 50]).map (fun r ↦ r.2.2) = some true := by
    decide +kernel
  obtain ⟨⟨t, mined, b⟩, hr, rfl⟩ := Option.map_eq_some_iff.mp hround
  obtain ⟨hrun, hmined, verdict, hverdict, hsome⟩ := roundAfter_some hr
  obtain ⟨checked, rfl⟩ := Option.isSome_iff_exists.mp hsome
  exact ⟨t, mined, hrun, hmined, (mined_accepted_iff proves_sample hmined).mp ⟨checked, hverdict⟩⟩

/-- Two pooled transactions that spend the same output end up in one block. -/
theorem conflicting_mined :
    ¬ ∀ (env : Env) (cfg : Config) (rig : Rig) (wallet : Wallet) (s t : ChainManager) (now : Int64)
      (mined : Mined), create env cfg wallet = .ok s → Run env cfg (fun _ _ ↦ True) s t →
      Proves env rig → startMining env cfg rig (.at t) now = .ok (some mined) →
      ∃ checked, validateBlock env cfg t.mainChain.headerChain t.chainstate mined.1
        (currentHeight t.mainChain.headerChain + 1) = .ok (some checked) := by
  intro h
  have hround : (roundAfter [spendGenesis 50, spendGenesis 40]).map (fun r ↦ r.2.2) =
      some false := by decide +kernel
  obtain ⟨⟨t, mined, b⟩, hr, rfl⟩ := Option.map_eq_some_iff.mp hround
  obtain ⟨hrun, hmined, verdict, hverdict, hsome⟩ := roundAfter_some hr
  obtain ⟨checked, hchecked⟩ := h _ _ _ _ _ t _ mined create_sample hrun proves_sample hmined
  obtain rfl := Except.ok.inj (hverdict.symm.trans hchecked)
  cases hsome

end Sample

end FheBlockchain.Chain.Miner
