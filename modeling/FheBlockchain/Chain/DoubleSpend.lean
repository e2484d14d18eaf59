import FheBlockchain.Chain.Accepted
import FheBlockchain.Core.Amounts
import FheBlockchain.Core.Serialization
import FheBlockchain.Store.ChainstateKeys

namespace FheBlockchain.Chain.DoubleSpend

open Core.Transactions Core.Blocks Core.Serialization Validation Store.Coins
open Store.ChainstateEffects Store.ChainstateRewind Store.ChainstateKeys Store.Pools
open Store.Chainstate hiding M
open ValidationFacts Manager AppendFacts Accepted
open Core.Amounts (spending)
open Library.BigEndian

variable {na : Sodium} {x y : Bool × Transaction}

def serializations (txs : List (Bool × Transaction)) : List Bytes :=
  txs.filterMap fun tx ↦ tx.2.serialize.toOption

def CollisionFree (na : Sodium) (txs : List (Bool × Transaction)) : Prop :=
  ∀ bx ∈ serializations txs, ∀ by' ∈ serializations txs, na.hash bx = na.hash by' → bx = by'

instance (txs : List (Bool × Transaction)) : Decidable (CollisionFree na txs) :=
  inferInstanceAs (Decidable (∀ bx ∈ _, ∀ by' ∈ _, _ → _))

/-- A transaction that validation does not tell apart from others by an output
that it spends: it is the first of its block or has no inputs. -/
def Unanchored (tx : Bool × Transaction) : Prop := tx.1 = true ∨ tx.2.inputs = []

def Distinguished (x y : Bool × Transaction) : Prop :=
  Unanchored x ∨ Unanchored y → x.2.outputs ≠ [] → y.2.outputs ≠ [] → x.2.serialize ≠ y.2.serialize

theorem mem_serializations {txs : List (Bool × Transaction)} (hx : x ∈ txs) {bx : Bytes}
    (hbx : x.2.serialize = .ok bx) : bx ∈ serializations txs :=
  List.mem_filterMap.mpr ⟨x, hx, by rw [hbx]; rfl⟩

def HasTxid (na : Sodium) (tx : Bool × Transaction) : Prop := ∃ txid, tx.2.txid na = .ok txid

theorem mem_createdByTx (hid : HasTxid na x) {k : Bytes} (hk : k ∈ createdByTx na x) :
    x.2.outputs ≠ [] ∧ ∃ bx vout, x.2.serialize = .ok bx ∧
      k = txidVoutPairToKey (na.hash bx) vout := by
  obtain ⟨txid, htxid⟩ := hid
  obtain ⟨bx, hbx, rfl⟩ := txid_serialize htxid
  have hout : x.2.outputs ≠ [] := by
    intro hnil
    simp [createdByTx, txEffect, hnil, outputsOf] at hk
  rw [createdByTx, txEffect, txidForOutputs, if_neg hout, htxid] at hk
  obtain ⟨i, -, rfl⟩ := mem_outputsOf.mp hk
  exact ⟨hout, bx, _, hbx, rfl⟩

theorem createdByTx_length (hid : HasTxid na x) {k : Bytes} (hk : k ∈ createdByTx na x) :
    k.length = 40 := by
  obtain ⟨-, bx, vout, -, rfl⟩ := mem_createdByTx hid hk
  simp [txidVoutPairToKey]

theorem serialize_eq_of_not_disjoint {txs : List (Bool × Transaction)} (hfree : CollisionFree na txs)
    (hx : x ∈ txs) (hy : y ∈ txs) (hidx : HasTxid na x) (hidy : HasTxid na y)
    (h : ¬ List.Disjoint (createdByTx na x) (createdByTx na y)) :
    x.2.outputs ≠ [] ∧ y.2.outputs ≠ [] ∧ ∃ b, x.2.serialize = .ok b ∧ y.2.serialize = .ok b := by
  simp only [List.Disjoint, not_forall] at h
  obtain ⟨k, hkx, hky, -⟩ := h
  obtain ⟨houtx, bx, voutx, hbx, rfl⟩ := mem_createdByTx hidx hkx
  obtain ⟨houty, by', vouty, hby, he⟩ := mem_createdByTx hidy hky
  obtain rfl := hfree bx (mem_serializations hx hbx) by' (mem_serializations hy hby)
    (txidVoutPairToKey_inj he).1
  exact ⟨houtx, houty, bx, hbx, hby⟩

theorem spend_common_key (hx : ¬ Unanchored x) (hy : ¬ Unanchored y)
    (hlenx : ∀ k ∈ consumedByTx na x, k.length = 40) (hleny : ∀ k ∈ consumedByTx na y, k.length = 40)
    {b : Bytes} (hbx : x.2.serialize = .ok b) (hby : y.2.serialize = .ok b) :
    ∃ k ∈ consumedByTx na x, k ∈ consumedByTx na y := by
  have hfirst {z : Bool × Transaction} (hz : ¬ Unanchored z)
      (hlen : ∀ k ∈ consumedByTx na z, k.length = 40) (hb : z.2.serialize = .ok b) :
      (b.drop 8).take 40 ∈ consumedByTx na z := by
    obtain ⟨hflag, hin⟩ := not_or.mp hz
    obtain ⟨inp, rest, hcons⟩ := List.exists_cons_of_ne_nil hin
    have hmem : inp.key ∈ consumedByTx na z := by
      simp [consumedByTx, txEffect, hflag, hcons]
    have h32 : inp.txid.length = 32 := by
      have := hlen _ hmem
      simpa [TransactionInput.key, txidVoutPairToKey] using this
    rwa [key_serialize hb hcons h32]
  exact ⟨_, hfirst hx hlenx hbx, hfirst hy hleny hby⟩

theorem createdIn_step {cs : MemChainstate} {blocks : List Block} {block : Block} {height : UInt32}
    (hids : ∀ tx ∈ chainTxs (blocks ++ [block]), HasTxid na tx)
    (hfree : CollisionFree na (chainTxs (blocks ++ [block])))
    (hfit : ∀ tx ∈ chainTxs (blocks ++ [block]), tx.2.outputs.length ≤ 2 ^ 64)
    (hdist : (chainTxs (blocks ++ [block])).Pairwise Distinguished)
    (hold : (createdIn na blocks).Nodup)
    (hkeyed : Keyed cs (createdIn na blocks) (consumedIn na blocks))
    (hs : Spendable cs (blockEffects na block height)) :
    (createdIn na (blocks ++ [block])).Nodup := by
  have hmem {k : Bytes} {y : Bool × Transaction} (hy : y ∈ flagged block.transactions)
      (hk : k ∈ consumedByTx na y) : k ∈ createdIn na blocks ∧ k ∉ consumedIn na blocks := by
    refine hkeyed.consumed_notMem hs ?_
    rw [consumedBy_blockEffects]
    exact List.mem_flatMap_of_mem hy hk
  have hlen {k : Bytes} (hk : k ∈ createdIn na blocks) : k.length = 40 := by
    obtain ⟨tx, htx, hk⟩ := List.mem_flatMap.mp hk
    refine createdByTx_length (hids tx ?_) hk
    rw [chainTxs_append]
    exact List.mem_append_left _ htx
  have hlenNew {y : Bool × Transaction} (hy : y ∈ flagged block.transactions) :
      ∀ k ∈ consumedByTx na y, k.length = 40 := fun k hk ↦ hlen (hmem hy hk).1
  have hlenOld {x : Bool × Transaction} (hx : x ∈ chainTxs blocks) :
      ∀ k ∈ consumedByTx na x, k.length = 40 := fun k hk ↦
    hlen (hkeyed.consumed_sub k (List.mem_flatMap_of_mem hx hk))
  rw [chainTxs_append] at hids hfree hfit hdist
  rw [createdIn, chainTxs_append]
  have hdisj {x y : Bool × Transaction} (hx : x ∈ chainTxs blocks ++ flagged block.transactions)
      (hy : y ∈ chainTxs blocks ++ flagged block.transactions) (hd : Distinguished x y)
      (hlenx : ∀ k ∈ consumedByTx na x, k.length = 40)
      (hleny : ∀ k ∈ consumedByTx na y, k.length = 40)
      (hspend : List.Disjoint (consumedByTx na x) (consumedByTx na y)) :
      List.Disjoint (createdByTx na x) (createdByTx na y) := by
    by_contra hnot
    obtain ⟨houtx, houty, b, hbx, hby⟩ :=
      serialize_eq_of_not_disjoint hfree hx hy (hids x hx) (hids y hy) hnot
    by_cases hun : Unanchored x ∨ Unanchored y
    · exact hd hun houtx houty (hbx.trans hby.symm)
    · obtain ⟨hunx, huny⟩ := not_or.mp hun
      obtain ⟨k, hkx, hky⟩ := spend_common_key hunx huny hlenx hleny hbx hby
      exact hspend hkx hky
  refine List.nodup_flatMap.mpr ⟨fun x hx ↦ createdByTx_nodup na (hfit x hx), ?_⟩
  obtain ⟨-, hdistNew, hcross⟩ := List.pairwise_append.mp hdist
  refine List.pairwise_append.mpr ⟨(List.nodup_flatMap.mp hold).2, ?_, fun x hx y hy ↦ ?_⟩
  · have hspend := hs.1
    rw [consumedBy_blockEffects] at hspend
    refine (hdistNew.and (List.nodup_flatMap.mp hspend).2).imp_of_mem fun hx hy h ↦ ?_
    exact hdisj (List.mem_append_right _ hx) (List.mem_append_right _ hy) h.1 (hlenNew hx)
      (hlenNew hy) h.2
  · refine hdisj (List.mem_append_left _ hx) (List.mem_append_right _ hy) (hcross x hx y hy)
      (hlenOld hx) (hlenNew hy) fun k hkx hky ↦ ?_
    exact (hmem hy hky).2 (List.mem_flatMap_of_mem hx hkx)

section Runs

variable {env : Env} {cfg : Config} {wallet : Wallet} {genesis : Block} {s t : ChainManager}
variable {P : MemChainstate → Block → ℕ → Prop} {blocks : List Block}

theorem hasTxid_run
    (hgen : Block.genesis env.toSodium cfg.timestamp cfg.difficulty cfg.publicKey cfg.reward =
      .ok genesis)
    (hrun : AcceptedRun env cfg P (started env wallet genesis) blocks t) :
    ∀ tx ∈ chainTxs (genesis :: blocks), HasTxid env.toSodium tx := by
  induction hrun with
  | start =>
    intro tx htx
    obtain ⟨htxs, hid⟩ := genesis_ok hgen
    simp only [chainTxs, List.flatMap_cons, List.flatMap_nil, htxs, flagged, List.map_nil,
      List.append_nil, List.mem_singleton] at htx
    exact htx ▸ hid
  | @append blocks block t t' u _ _ _ _ happ ih =>
    intro tx htx
    rw [← List.cons_append, chainTxs_append, List.mem_append] at htx
    rcases htx with htx | htx
    · exact ih tx htx
    · obtain ⟨head, txs, pool, hr, -⟩ := appendBlock_true happ
      obtain ⟨cb, rest, cks, hb, -⟩ := validateBlock_some hr.checked
      exact hb.txid_ok tx.2 (mem_of_mem_flagged htx)

theorem keyed_run
    (hgen : Block.genesis env.toSodium cfg.timestamp cfg.difficulty cfg.publicKey cfg.reward =
      .ok genesis)
    (hrun : AcceptedRun env cfg P (started env wallet genesis) blocks t)
    (hfree : CollisionFree env.toSodium (chainTxs (genesis :: blocks)))
    (hfit : ∀ tx ∈ chainTxs (genesis :: blocks), tx.2.outputs.length ≤ 2 ^ 64)
    (hdist : (chainTxs (genesis :: blocks)).Pairwise Distinguished) :
    (createdIn env.toSodium (genesis :: blocks)).Nodup ∧
      Keyed t.chainstate (createdIn env.toSodium (genesis :: blocks))
        (consumedIn env.toSodium (genesis :: blocks)) := by
  have hids := hasTxid_run hgen hrun
  induction hrun with
  | start => exact keyed_genesis hgen
  | @append blocks block t t' u hrun hmain hcs _ happ ih =>
    rw [← List.cons_append] at hids hfree hfit hdist ⊢
    have hsub : ∀ tx ∈ chainTxs (genesis :: blocks), tx ∈ chainTxs (genesis :: blocks ++ [block]) :=
      fun tx htx ↦ by
        rw [chainTxs_append]
        exact List.mem_append_left _ htx
    have hser : ∀ b ∈ serializations (chainTxs (genesis :: blocks)),
        b ∈ serializations (chainTxs (genesis :: blocks ++ [block])) := fun b hb ↦ by
      obtain ⟨tx, htx, he⟩ := List.mem_filterMap.mp hb
      exact List.mem_filterMap.mpr ⟨tx, hsub tx htx, he⟩
    have hdistOld := hdist
    rw [chainTxs_append, List.pairwise_append] at hdistOld
    obtain ⟨hold, hkeyed⟩ := ih (fun x hx y hy ↦ hfree x (hser x hx) y (hser y hy))
      (fun tx htx ↦ hfit tx (hsub tx htx)) hdistOld.1 (fun tx htx ↦ hids tx (hsub tx htx))
    obtain ⟨head, txs, pool, hr, rfl⟩ := appendBlock_true happ
    obtain ⟨cb, rest, cks, hb, -⟩ := validateBlock_some hr.checked
    have hs := hb.spendable (UInt32.ofNat t'.mainChain.headerChain.length)
    rw [← hcs] at hkeyed
    have hnew := createdIn_step hids hfree hfit hdist hold hkeyed hs
    refine ⟨hnew, ?_⟩
    rw [createdIn_append _ _ _ (UInt32.ofNat t'.mainChain.headerChain.length)] at hnew ⊢
    rw [consumedIn_append _ _ _ (UInt32.ofNat t'.mainChain.headerChain.length)]
    exact hkeyed.step hs hnew

theorem distinguished_of_nodup {txs : List (Bool × Transaction)} {na : Sodium}
    (hids : ∀ tx ∈ txs, HasTxid na tx) (h : (txs.flatMap (createdByTx na)).Nodup) :
    txs.Pairwise Distinguished := by
  refine (List.nodup_flatMap.mp h).2.imp_of_mem fun {x y} hx hy hdisj _ houtx houty he ↦ ?_
  have hfirst {z : Bool × Transaction} (hz : z ∈ txs) (hout : z.2.outputs ≠ []) :
      ∃ b, z.2.serialize = .ok b ∧
        txidVoutPairToKey (na.hash b) (UInt64.ofNat 0) ∈ createdByTx na z := by
    obtain ⟨txid, htxid⟩ := hids z hz
    obtain ⟨b, hb, rfl⟩ := txid_serialize htxid
    refine ⟨b, hb, ?_⟩
    rw [createdByTx, txEffect, txidForOutputs, if_neg hout, htxid]
    exact mem_outputsOf.mpr ⟨0, List.length_pos_iff.mpr hout, rfl⟩
  obtain ⟨bx, hbx, hkx⟩ := hfirst hx houtx
  obtain ⟨by', hby, hky⟩ := hfirst hy houty
  rw [hbx, hby] at he
  obtain rfl := Except.ok.inj he
  exact hdisj hkx hky

/-- Along accepted blocks every key is created and consumed at most once if and
only if the first transactions of blocks and those without inputs differ from
all others. -/
theorem spent_once_iff
    (hgen : Block.genesis env.toSodium cfg.timestamp cfg.difficulty cfg.publicKey cfg.reward =
      .ok genesis)
    (hs : create env cfg wallet = .ok s) (hrun : AcceptedRun env cfg P s blocks t)
    (hfree : CollisionFree env.toSodium (chainTxs (genesis :: blocks)))
    (hfit : ∀ tx ∈ chainTxs (genesis :: blocks), tx.2.outputs.length ≤ 2 ^ 64) :
    ((createdIn env.toSodium (genesis :: blocks)).Nodup ∧
      (consumedIn env.toSodium (genesis :: blocks)).Nodup) ↔
    (chainTxs (genesis :: blocks)).Pairwise Distinguished := by
  obtain ⟨genesis', hgen', rfl⟩ := create_ok hs
  rw [hgen] at hgen'
  obtain rfl := Except.ok.inj hgen'
  constructor
  · rintro ⟨hcreated, -⟩
    exact distinguished_of_nodup (hasTxid_run hgen hrun) hcreated
  · intro hdist
    obtain ⟨hcreated, hkeyed⟩ := keyed_run hgen hrun hfree hfit hdist
    exact ⟨hcreated, hkeyed.consumed_nodup⟩

end Runs

def firstCoinbase : Transaction := coinbaseTransaction sampleKey 50 1

/-- The first coinbase is spent, appears once more as the first transaction of
the third block, and is spent again. -/
def repeatedCoinbase : List Block :=
  let b₁ := sampleBlock sampleGenesis 1 [firstCoinbase]
  let spend := spending sampleEnv.toSodium firstCoinbase [50]
  let b₂ := sampleBlock b₁ 2 [coinbaseTransaction sampleKey 50 2, spend]
  let b₃ := sampleBlock b₂ 3 [firstCoinbase]
  [b₁, b₂, b₃, sampleBlock b₃ 4 [coinbaseTransaction sampleKey 50 4, spend]]

theorem spent_once_iff_sample : ∃ t,
    AcceptedRun sampleEnv sampleConfig (fun _ _ _ ↦ True) sampleStart (repeatedCoinbase.take 2) t ∧
      ((createdIn sampleEnv.toSodium (sampleGenesis :: repeatedCoinbase.take 2)).Nodup ∧
        (consumedIn sampleEnv.toSodium (sampleGenesis :: repeatedCoinbase.take 2)).Nodup ↔
      (chainTxs (sampleGenesis :: repeatedCoinbase.take 2)).Pairwise Distinguished) := by
  have hsome : (acceptAll (fun _ _ _ ↦ True) sampleEnv sampleConfig (repeatedCoinbase.take 2)
      sampleStart).isSome = true := by decide +kernel
  obtain ⟨t, ht⟩ := Option.isSome_iff_exists.mp hsome
  exact ⟨t, acceptAll_run ht, spent_once_iff genesis_sample create_sample (acceptAll_run ht)
    (by decide +kernel) (by decide +kernel)⟩

theorem coinbase_spent_twice :
    ¬ ∀ (env : Env) (cfg : Config) (wallet : Wallet) (genesis : Block) (s t : ChainManager)
      (blocks : List Block),
      Block.genesis env.toSodium cfg.timestamp cfg.difficulty cfg.publicKey cfg.reward =
        .ok genesis →
      create env cfg wallet = .ok s → AcceptedRun env cfg (fun _ _ _ ↦ True) s blocks t →
      CollisionFree env.toSodium (chainTxs (genesis :: blocks)) →
      (∀ tx ∈ chainTxs (genesis :: blocks), tx.2.outputs.length ≤ 2 ^ 64) →
      (consumedIn env.toSodium (genesis :: blocks)).Nodup := by
  intro h
  have hsome : (acceptAll (fun _ _ _ ↦ True) sampleEnv sampleConfig repeatedCoinbase
      sampleStart).isSome = true := by decide +kernel
  obtain ⟨t, ht⟩ := Option.isSome_iff_exists.mp hsome
  have hnd := h _ _ _ _ _ t _ genesis_sample create_sample (acceptAll_run ht) (by decide +kernel)
    (by decide +kernel)
  revert hnd
  decide +kernel

end FheBlockchain.Chain.DoubleSpend
