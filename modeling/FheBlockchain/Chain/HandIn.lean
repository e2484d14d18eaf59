import FheBlockchain.Chain.Miner
import FheBlockchain.Chain.PoolHistory

namespace FheBlockchain.Chain.HandIn

open Core.Transactions Core.Blocks Store.Pools Store.PoolFacts Validation ValidationFacts Manager
open AppendFacts Accepted Exceptions Placement PoolHistory Node Miner
open Store.Chainstate hiding M addBlock
open Store.Coins hiding M
open Library.Execution Library.Results

variable {env : Env} {cfg : Config} {rig : Rig} {s t : ChainManager} {block : Block}

section Rounds

/-- A mining round: its reads follow one another, the last two in either order,
and blocks of other nodes may come in before each of them and before the mined
block is handed in. -/
structure Round (env : Env) (cfg : Config) (rig : Rig) (r : Reads) (now : Int64) (mined : Mined)
    (t : ChainManager) : Prop where
  target : Run env cfg Received r.memPool r.target
  difficulty : Run env cfg Received r.target r.difficulty
  reward : Run env cfg Received r.difficulty r.reward
  computations : Run env cfg Received r.reward r.computations
  head : Run env cfg Received r.computations r.head
  height : Run env cfg Received r.computations r.height
  mined : startMining env cfg rig r now = .ok (some mined)
  handIn : Run env cfg Received r.head t ∧ Run env cfg Received r.height t

theorem withAmounts_mined {cb : Transaction} {txs : List PooledTx}
    (h : block.transactions = cb :: txs.map PooledTx.tx) :
    withAmounts block ([] :: txs.map PooledTx.inAmounts) = ⟨cb, []⟩ :: txs := by
  rw [withAmounts, h]
  refine List.ext_getElem (by simp) fun i _ hi ↦ ?_
  cases i with
  | zero => rfl
  | succ i =>
    have hi' : i < txs.length := by simpa using hi
    simp [Nat.add_comm 1, List.getElem?_eq_getElem hi']

/-- What a round leaves behind: the first transactions of the pool after a
coinbase, with their fees and TXIDs. -/
theorem mined_txs {r : Reads} {now : Int64} {mined : Mined}
    (h : startMining env cfg rig r now = .ok (some mined)) :
    ∃ cb txs, withAmounts mined.1 mined.2 = ⟨cb, []⟩ :: txs ∧
      r.memPool.memPool.getTop cfg.defaultTxPerBlock = .ok txs ∧
      AllPriced env.toSodium (withAmounts mined.1 mined.2) ∧
      Identified env.toSodium mined.1 := by
  obtain ⟨block, amounts⟩ := mined
  obtain ⟨txs, difficulty, reward, head, fees, rfl, htop, -, -, -, hfees, -, hb⟩ := startMining_ok h
  obtain ⟨cbid, txids, hcbid, hids, -⟩ := hb.root
  have hid {p : PooledTx} (hp : p ∈ txs) : ∃ txid, p.tx.txid env.toSodium = .ok txid := by
    obtain ⟨txid, -, htxid⟩ := exists_of_forall₂ (forall₂_mapM hids) (List.mem_map_of_mem hp)
    exact ⟨txid, htxid⟩
  have hwith := withAmounts_mined hb.transactions
  refine ⟨_, txs, hwith, htop, fun p hp ↦ ?_, fun tx htx ↦ ?_, hb.proven⟩
  · rw [hwith, List.tail_cons] at hp
    obtain ⟨txid, htxid⟩ := hid hp
    obtain ⟨fee, -, hfee⟩ := exists_of_forall₂ (forall₂_mapM hfees) hp
    exact ⟨txid, htxid, fee, hfee⟩
  · rw [hb.transactions, List.mem_cons] at htx
    rcases htx with rfl | htx
    · exact ⟨cbid, hcbid⟩
    · obtain ⟨p, hp, rfl⟩ := List.mem_map.mp htx
      exact hid hp

def Accepts (env : Env) (cfg : Config) (t : ChainManager) (block : Block) : Prop :=
  canAttach env t.mainChain.headerChain block.header = true ∧
    ∃ txs, validateBlock env cfg t.mainChain.headerChain t.chainstate block
      (UInt32.ofNat t.mainChain.headerChain.length) = .ok (some txs)

def Safe (env : Env) (cfg : Config) (t : ChainManager) (mined : Mined) : Prop :=
  match addBlock env cfg mined.1 (some mined.2) t with
  | .ok true _ => Accepts env cfg t mined.1
  | .ok false u => u.mainChain = t.mainChain ∧ u.chainstate = t.chainstate ∧
      u.blockStore = t.blockStore ∧ u.memPool = t.memPool ∧ u.compStore = t.compStore
  | .error _ _ => False

/-- The tip has not moved since its header was read and, unless the block is not
later than it, validation accepts the block and its pooled transactions clear. -/
def Current (env : Env) (cfg : Config) (t : ChainManager) (mined : Mined) : Prop :=
  ∃ tip, t.mainChain.headerChain.getLast? = some tip ∧
    mined.1.header.prevHash = tip.hash env.toSodium ∧
    (mined.1.header.timestamp ≤ tip.timestamp ∨
      (∃ txs, validateBlock env cfg t.mainChain.headerChain t.chainstate mined.1
        (UInt32.ofNat t.mainChain.headerChain.length) = .ok (some txs)) ∧
      Clears env.toSodium t.memPool [] (withAmounts mined.1 mined.2).tail)

theorem safe_later_iff {mined : Mined} {tip : BlockHeader}
    (htip : t.mainChain.headerChain.getLast? = some tip)
    (hprev : mined.1.header.prevHash = tip.hash env.toSodium)
    (hlater : ¬ mined.1.header.timestamp ≤ tip.timestamp)
    (hids : Identified env.toSodium mined.1) :
    Safe env cfg t mined ↔ Accepts env cfg t mined.1 ∧
      ∃ pool, MemPool.spendBlock env.toSodium (withAmounts mined.1 mined.2) t.memPool = .ok () pool := by
  have hadd : addBlock env cfg mined.1 (some mined.2) t =
      appendAndUpdate env cfg mined.1 (some mined.2) t := rfl
  have happend := @appendBlock_eq env cfg t mined.1 (some mined.2) tip htip hprev
  simp only [checkedFor, if_neg hlater] at happend
  have hext := @extendMain_eq env t mined.1 tip (withAmounts mined.1 mined.2)
    t.mainChain.headerChain.length
  rw [addBlock_link] at hext
  cases hcs : Store.Chainstate.addBlock env.toSodium mined.1
      (UInt32.ofNat t.mainChain.headerChain.length) t.chainstate with
  | error e cs =>
    rw [hcs] at hext
    rw [run_bind_of_error hext] at happend
    have hrun := hadd.trans (run_bind_of_error happend)
    rw [Safe, hrun]
    refine ⟨False.elim, ?_⟩
    rintro ⟨⟨-, txs, htxs⟩, -⟩
    rw [(takeable_of_validated htxs).addBlock_run] at hcs
    cases hcs
  | ok _ cs =>
    simp only [hcs, if_pos hids.proven] at hext
    cases hpool : MemPool.spendBlock env.toSodium (withAmounts mined.1 mined.2) t.memPool with
    | error e pool =>
      rw [hpool] at hext
      rw [run_bind_of_error hext] at happend
      have hrun := hadd.trans (run_bind_of_error happend)
      rw [Safe, hrun]
      refine ⟨False.elim, ?_⟩
      rintro ⟨-, pool, he⟩
      cases he
    | ok _ pool =>
      rw [hpool] at hext
      rw [run_bind_of_ok hext] at happend
      have hupdate := updateWallet_run hids
        (extended env t (link env tip mined.1) cs pool)
      have hrun := hadd.trans ((run_bind_of_ok happend).trans (run_bind_of_ok hupdate))
      rw [Safe, hrun]
      exact ⟨fun h ↦ ⟨h, pool, rfl⟩, fun h ↦ h.1⟩

theorem handIn_safe_iff {wallet : Wallet} {r : Reads} {now : Int64} {mined : Mined}
    (hs : create env cfg wallet = .ok s) (hrun : Run env cfg (Paid env.toSodium) s r.memPool)
    (hround : Round env cfg rig r now mined t) :
    Safe env cfg t mined ↔ Current env cfg t mined := by
  have hindexed := indexed_of_run hs hrun
  have hbetween : Run env cfg Received r.memPool t :=
    hround.target.trans (hround.difficulty.trans (hround.reward.trans
      (hround.computations.trans (hround.head.trans hround.handIn.1))))
  have hshrunk := shrunk_of_run hindexed hbetween
  obtain ⟨cb, txs, hwith, htop, hpriced, hids⟩ := mined_txs hround.mined
  have hown : ∀ p ∈ (withAmounts mined.1 mined.2).tail, ∃ txid, Priced env.toSodium p txid ∧
      ∀ q, t.memPool.txStorage.lookup txid = some q → q = p := by
    intro p hp
    rw [hwith, List.tail_cons] at hp
    obtain ⟨pair, -, hpair⟩ := exists_of_forall₂ (List.Forall₂.flip (forall₂_mapM htop)) hp
    split at hpair
    next q hq =>
      cases hpair
      refine ⟨_, (hindexed.stored hq).1, fun q' hq' ↦ ?_⟩
      exact Option.some.inj ((hshrunk.storage hq').symm.trans hq)
    next => cases hpair
  have hspend := spendBlock_iff hshrunk.indexed hown
  have hadd : addBlock env cfg mined.1 (some mined.2) t =
      appendAndUpdate env cfg mined.1 (some mined.2) t := rfl
  cases htip : t.mainChain.headerChain.getLast? with
  | none =>
    have herr : appendBlock env cfg mined.1 (some mined.2) t =
        .error (.abort .indexOutOfRange) t := by
      simp [appendBlock, backOf, htip]
    rw [Safe, hadd.trans (run_bind_of_error herr)]
    refine ⟨False.elim, ?_⟩
    rintro ⟨tip, h, -⟩
    rw [htip] at h
    cases h
  | some tip =>
    have hcurrent : Current env cfg t mined ↔ mined.1.header.prevHash = tip.hash env.toSodium ∧
        (mined.1.header.timestamp ≤ tip.timestamp ∨
          (∃ txs, validateBlock env cfg t.mainChain.headerChain t.chainstate mined.1
            (UInt32.ofNat t.mainChain.headerChain.length) = .ok (some txs)) ∧
          Clears env.toSodium t.memPool [] (withAmounts mined.1 mined.2).tail) := by
      simp [Current, htip]
    rw [hcurrent]
    by_cases hprev : mined.1.header.prevHash = tip.hash env.toSodium
    · by_cases hlater : mined.1.header.timestamp ≤ tip.timestamp
      · have hfalse : appendBlock env cfg mined.1 (some mined.2) t = .ok false t := by
          rw [appendBlock_eq htip hprev]
          exact if_pos hlater
        rw [Safe, hadd.trans (run_bind_of_ok hfalse)]
        exact ⟨fun _ ↦ ⟨hprev, .inl hlater⟩, fun _ ↦ ⟨rfl, rfl, rfl, rfl, rfl⟩⟩
      · have hattach : canAttach env t.mainChain.headerChain mined.1.header = true := by
          simp [canAttach, htip, hprev]
        rw [safe_later_iff htip hprev hlater hids, hspend, Accepts]
        simp [hprev, hlater, hattach]
    · have herr : appendBlock env cfg mined.1 (some mined.2) t = .error (.throw cannotAttach) t := by
        simp [appendBlock, backOf, htip, hprev, cannotAttach, invalidArgument]
      rw [Safe, hadd.trans (run_bind_of_error herr)]
      exact ⟨False.elim, fun h ↦ hprev h.1⟩

end Rounds

section Sample

def computing : ChainManager := { sampleStart with
  compStore := (MemCompStore.storeComputation sampleEnv.toSodium ∅ sampleComputation).1 }

theorem run_computing :
    Run sampleEnv sampleConfig (Paid sampleEnv.toSodium) sampleStart computing := by
  have hlead : Leads (handle sampleEnv sampleConfig (.computation sampleComputation)) sampleStart
      computing := .inl ⟨true, rfl⟩
  have hpaid : Paid sampleEnv.toSodium sampleStart (.computation sampleComputation) := trivial
  exact .step .start hpaid hlead

def settled : ChainManager :=
  (handleAll Received sampleEnv sampleConfig [.block firstBlock none] computing).getD computing

theorem run_settled : Run sampleEnv sampleConfig (Paid sampleEnv.toSodium) sampleStart settled := by
  have htaken : (handleAll Received sampleEnv sampleConfig [.block firstBlock none]
      computing).isSome = true := by decide +kernel
  obtain ⟨t, ht⟩ := Option.isSome_iff_exists.mp htaken
  rw [settled, ht, Option.getD_some]
  refine handleAll_run_of run_computing (fun event hevent u _ ↦ ?_) ht
  rw [List.mem_singleton.mp hevent]
  trivial

/-- A round without transactions, after which some blocks come in. -/
def raceWith (s : ChainManager) (arrivals : List Block) : Option (Mined × ChainManager) := do
  let mined ← (← (startMining sampleEnv sampleConfig sampleRig (.at s) 5).toOption)
  return (mined, ← handleAll Received sampleEnv sampleConfig (arrivals.map (.block · none)) s)

theorem raceWith_round {arrivals : List Block} {mined : Mined}
    (h : raceWith s arrivals = some (mined, t)) :
    Round sampleEnv sampleConfig sampleRig (.at s) 5 mined t := by
  simp only [raceWith, Option.bind_eq_bind, Option.bind_eq_some_iff] at h
  obtain ⟨found, hfound, mined', rfl, t', ht, he⟩ := h
  cases he
  have hrun := handleAll_run .start ht
  exact ⟨.start, .start, .start, .start, .start, .start, of_toOption hfound, hrun, hrun⟩

/-- A rival of the tip comes in during the round and starts a fork. -/
theorem undisturbed_current : ∃ mined t,
    Round sampleEnv sampleConfig sampleRig (.at settled) 5 mined t ∧ t.forks.length = 1 ∧
      Current sampleEnv sampleConfig t mined := by
  have hrace : (raceWith settled [arriving sampleGenesis 2]).map (fun r ↦
      returns (addBlock sampleEnv sampleConfig r.1.1 (some r.1.2)) r.2 fun added _ ↦ added &&
        decide (r.2.forks.length = 1) &&
        (validateBlock sampleEnv sampleConfig r.2.mainChain.headerChain r.2.chainstate r.1.1
          (UInt32.ofNat r.2.mainChain.headerChain.length)).toOption.join.isSome &&
        canAttach sampleEnv r.2.mainChain.headerChain r.1.1.header) = some true := by
    decide +kernel
  have hrun := run_settled
  -- what follows holds of any state, and the state itself is large to unfold
  generalize settled = s at hrace hrun ⊢
  obtain ⟨⟨mined, t⟩, hr, hok⟩ := Option.map_eq_some_iff.mp hrace
  have hround := raceWith_round hr
  obtain ⟨added, u, hadd, htest⟩ := returns_iff.mp hok
  simp only [Bool.and_eq_true] at htest
  obtain ⟨⟨⟨rfl, hforks⟩, hvalid⟩, hattach⟩ := htest
  refine ⟨mined, t, hround, of_decide_eq_true hforks,
    (handIn_safe_iff create_sample hrun hround).mp ?_⟩
  obtain ⟨txs, htxs⟩ := Option.isSome_iff_exists.mp hvalid
  rw [Safe, hadd]
  exact ⟨hattach, txs, of_toOption (Option.join_eq_some_iff.mp htxs)⟩

/-- A block that comes in during the round makes the hand-in throw. -/
theorem overtaken_throws :
    ¬ ∀ (env : Env) (cfg : Config) (rig : Rig) (wallet : Wallet) (s t : ChainManager) (r : Reads)
      (now : Int64) (mined : Mined), create env cfg wallet = .ok s →
      Run env cfg (Paid env.toSodium) s r.memPool → Round env cfg rig r now mined t →
      Safe env cfg t mined := by
  intro h
  have hrace : (raceWith computing [firstBlock]).map (fun r ↦
      fails (addBlock sampleEnv sampleConfig r.1.1 (some r.1.2)) r.2 (.throw cannotAttach)) =
        some true := by decide +kernel
  obtain ⟨⟨mined, t⟩, hr, hthrow⟩ := Option.map_eq_some_iff.mp hrace
  obtain ⟨u, hadd⟩ := fails_iff.mp hthrow
  have hsafe := h _ _ _ _ _ t _ _ mined create_sample run_computing (raceWith_round hr)
  rw [Safe, hadd] at hsafe
  exact hsafe

end Sample

end FheBlockchain.Chain.HandIn
