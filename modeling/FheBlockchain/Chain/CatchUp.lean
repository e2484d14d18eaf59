import FheBlockchain.Chain.Replicas
import FheBlockchain.Chain.Sync

namespace FheBlockchain.Chain.CatchUp

open Core.Transactions Core.Blocks Core.Messages Computer.Computations Computer.Binding
open Computer.Messages Store.Pools Validation Manager AppendFacts Accepted Ledgers ReorgFacts
open Placement Replay Wire Delivery Replicas Sync
open Node (Leads handle requestedBlock_outOfRange requestedBlock_ok)
open Store.ChainstateKeys (createdIn)
open Store.Chainstate hiding M addBlock
open Store.Coins hiding M
open Library.Execution Library.Results Library.Transitions

variable {env : Env} {cfg : Config} {genesis block : Block}
variable {fhe : OpenFhe} {des : Deserialize fhe} {enc : Encryption fhe}
variable {loaded : Block → List (FHEComputer fhe)} {blocks : List Block}

section Source

variable {s t : ChainManager}

def Proper (env : Env) (cfg : Config) (des : Deserialize fhe) (s : ChainManager)
    (event : Node.Event) : Prop :=
  Delivered env cfg (Valid env cfg) s event ∧ Sent des env s event

/-- A node whose chain is valid and whose stored blocks can be sent. -/
structure Source (env : Env) (cfg : Config) (genesis : Block) (s : ChainManager) : Prop where
  sound : Sound env cfg (Valid env cfg) s
  sendable : StoreSendable genesis s.blockStore

theorem source_start {wallet : Wallet} (hs : create env cfg wallet = .ok s)
    (hgen : Block.genesis env.toSodium cfg.timestamp cfg.difficulty cfg.publicKey cfg.reward =
      .ok genesis) : Source env cfg genesis s := by
  refine ⟨sound_start hs, fun k b hk ↦ ?_⟩
  obtain ⟨genesis', hgen', rfl⟩ := create_ok hs
  obtain rfl := Except.ok.inj (hgen.symm.trans hgen')
  rw [started_lookup] at hk
  split_ifs at hk
  exact .inl (Option.some.inj hk).symm

theorem Source.handle {event : Node.Event}
    (hgen : Block.genesis env.toSodium cfg.timestamp cfg.difficulty cfg.publicKey cfg.reward =
      .ok genesis) (h : Source env cfg genesis s) (hv : Proper env cfg des s event) :
    Post (handle env cfg event) s (fun _ ↦ Source env cfg genesis)
      (fun _ ↦ Source env cfg genesis) := by
  have hsound := post_handle_sound validated_valid h.sound hv.1
  have hsend := @post_handle_sendable env cfg s genesis _ des (genesis_linkable hgen) h.sendable
    event hv.2
  exact (hsound.and hsend).mono (fun _ _ ht ↦ ⟨ht.1, ht.2⟩) fun _ _ ht ↦ ⟨ht.1, ht.2⟩

structure Main (env : Env) (cfg : Config) (s : ChainManager) (blocks : List Block) : Prop where
  chain : s.mainChain.headerChain = blocks.map Block.header
  ledger : Ledger env cfg (Valid env cfg) blocks s.chainstate
  stored : ∀ b ∈ blocks, Stored env s.blockStore b

theorem Source.main (h : Source env cfg genesis s) : ∃ blocks, Main env cfg s blocks := by
  obtain ⟨blocks, hchain, hled, hall⟩ := h.sound.main
  exact ⟨blocks, hchain, hled, hall⟩

def hashes (env : Env) (s : ChainManager) : List Bytes :=
  s.mainChain.headerChain.map (BlockHeader.hash env.toSodium)

theorem Main.hashes_eq (h : Main env cfg s blocks) :
    hashes env s = blocks.map (Block.hash env.toSodium) := by
  rw [hashes, h.chain, List.map_map]
  rfl

theorem prefix_of_stored {store : MemBlockStore} {bs cs : List Block}
    (hb : ∀ b ∈ bs, Stored env store b) (hc : ∀ c ∈ cs, Stored env store c)
    (h : bs.map (Block.hash env.toSodium) <+: cs.map (Block.hash env.toSodium)) : bs <+: cs := by
  induction bs generalizing cs with
  | nil => exact List.nil_prefix
  | cons b bs ih =>
    cases cs with
    | nil => exact absurd (List.prefix_nil.mp h) (by simp)
    | cons c cs =>
      rw [List.map_cons, List.map_cons, List.cons_prefix_cons] at h
      have hsame : b = c := by
        have hstored := hb b List.mem_cons_self
        rw [Stored, h.1, hc c List.mem_cons_self] at hstored
        exact (Option.some.inj hstored).symm
      rw [hsame, List.cons_prefix_cons]
      exact ⟨rfl, ih (fun x hx ↦ hb x (List.mem_cons_of_mem b hx))
        (fun x hx ↦ hc x (List.mem_cons_of_mem c hx)) h.2⟩

theorem Main.grow (h : Main env cfg s blocks) (ht : Source env cfg genesis t)
    (hstore : Grows s.blockStore t.blockStore) (hgrow : hashes env s <+: hashes env t) :
    ∃ rest, Main env cfg t (blocks ++ rest) := by
  obtain ⟨blocks', hmain⟩ := ht.main
  rw [h.hashes_eq, hmain.hashes_eq] at hgrow
  obtain ⟨rest, rfl⟩ := prefix_of_stored (fun b hb ↦ hstore _ _ (h.stored b hb)) hmain.stored hgrow
  exact ⟨rest, hmain⟩

theorem ledger_starts {cs : MemChainstate}
    (hgen : Block.genesis env.toSodium cfg.timestamp cfg.difficulty cfg.publicKey cfg.reward =
      .ok genesis) (h : Ledger env cfg (Valid env cfg) blocks cs) :
    ∃ rest, blocks = [genesis] ++ rest := by
  induction h with
  | genesis hgen' =>
    obtain rfl := Except.ok.inj (hgen.symm.trans hgen')
    exact ⟨[], rfl⟩
  | @append blocks block prev cs _ _ _ _ _ _ ih =>
    obtain ⟨rest, rfl⟩ := ih
    exact ⟨rest ++ [block], rfl⟩

theorem ledger_proven {cs : MemChainstate} (h : Ledger env cfg (Valid env cfg) blocks cs) :
    ∀ b ∈ blocks, Proven b := by
  induction h with
  | genesis hgen =>
    obtain ⟨txids, -, he⟩ := bind_eq_ok.mp hgen
    cases he
    simp [Proven]
  | @append blocks block prev cs _ _ _ _ _ hvalid ih =>
    obtain ⟨last, txs, -, -, hvalidated⟩ := hvalid
    intro b hb
    rcases List.mem_append.mp hb with hb | hb
    · exact ih b hb
    · obtain rfl := List.mem_singleton.mp hb
      exact ValidationFacts.proven_of_validated hvalidated

theorem times_increase {cs : MemChainstate} (h : Ledger env cfg (Valid env cfg) blocks cs) :
    blocks.Pairwise fun a b ↦ a.header.timestamp < b.header.timestamp := by
  rw [← List.isChain_iff_pairwise]
  induction h with
  | genesis => exact List.isChain_singleton _
  | @append blocks block prev cs hold hprev _ _ _ hvalid ih =>
    obtain ⟨last, txs, hlast, hlater, -⟩ := hvalid
    refine List.isChain_append.mpr ⟨ih, List.isChain_singleton _, fun a ha b hb ↦ ?_⟩
    rw [hlast, Option.mem_some_iff] at ha
    rw [List.head?_cons, Option.mem_some_iff] at hb
    rw [← ha, ← hb]
    exact hlater

theorem Main.hash_notMem {done rest : List Block} (h : Main env cfg s (done ++ block :: rest)) :
    block.hash env.toSodium ∉ done.map (Block.hash env.toSodium) := by
  intro hmem
  obtain ⟨b, hb, hhash⟩ := List.mem_map.mp hmem
  have hsame : b = block := by
    have hstored := h.stored b (List.mem_append_left _ hb)
    rw [Stored, hhash, h.stored block (by simp)] at hstored
    exact (Option.some.inj hstored).symm
  obtain ⟨-, -, hacross⟩ := List.pairwise_append.mp (times_increase h.ledger)
  have hlater := hacross b hb block List.mem_cons_self
  rw [hsame] at hlater
  exact Int64.lt_irrefl hlater

end Source

section Answers

variable {s : ChainManager} {done rest : List Block}

/-- The node holds the computations of the blocks that it may have to send, and
32 bits hold the height of its chain. -/
def Serves (des : Deserialize fhe) (enc : Encryption fhe) (loaded : Block → List (FHEComputer fhe))
    (s : ChainManager) : Prop :=
  s.mainChain.headerChain.length < 2 ^ 32 ∧
    ∀ k b, s.blockStore.lookup k = some b → b.header.prevBlockHeader.isSome →
      Loads des enc b (loaded b)

def Brings (des : Deserialize fhe) (msg : InfoBlock) (block : Block) : Prop :=
  msg.outOfRange = false ∧ ∃ b comps, Block.fromProto des msg.block = .ok (b, comps) ∧
    SameBlock block b ∧ ∀ na : Sodium, b.hash na = block.hash na

theorem currentHeight_lt {chain : List BlockHeader} {n : ℕ} (hpos : 0 < n) (hle : n ≤ chain.length)
    (hlen : chain.length < 2 ^ 32) :
    currentHeight chain < UInt32.ofNat n ↔ n = chain.length := by
  rw [currentHeight, UInt32.lt_iff_toNat_lt, UInt32.toNat_sub, UInt32.toNat_ofNat',
    UInt32.toNat_ofNat', UInt32.toNat_one]
  omega

theorem answer_outOfRange (h : Main env cfg s done) (hserves : Serves des enc loaded s) :
    handleSyncBlock env loaded s (UInt32.ofNat done.length) = .ok ⟨defaultBlock, true⟩ := by
  have hlen : done.length = s.mainChain.headerChain.length := by rw [h.chain, List.length_map]
  exact handleSyncBlock_outOfRange (requestedBlock_outOfRange ((currentHeight_lt
    (List.length_pos_iff.mpr h.ledger.ne_nil) (Nat.le_of_eq hlen) hserves.1).mpr hlen))

theorem sameBlock_delivered {b : Loaded fhe} (h : Deliverable b) :
    SameBlock b.1 (delivered b).1 := by
  refine ⟨rfl, ?_, rfl, rfl, rfl, rfl⟩
  rw [BlockHeader.prevHash, BlockHeader.prevHash, h.prev]
  exact arrivedPrevHash_idem b.1.header

theorem Source.deliverable (hkeep : KeepsContext enc)
    (hgen : genesis.header.prevBlockHeader = none) (h : Source env cfg genesis s)
    (hserves : Serves des enc loaded s) (hstored : Stored env s.blockStore block)
    (hlink : block.header.prevBlockHeader.isSome) : Deliverable (block, loaded block) := by
  have hloads := hserves.2 _ _ hstored hlink
  rcases h.sendable _ _ hstored with rfl | hattached
  · rw [hgen] at hlink
    contradiction
  · exact ⟨hattached.prev, hattached.transactions,
      fun comp hcomp ↦ (hloads.produced comp hcomp).sound hkeep, hloads.computations⟩

theorem answer_brings (hr : Reads des) (hkeep : KeepsContext enc)
    (hgen : genesis.header.prevBlockHeader = none) (hs : Source env cfg genesis s)
    (h : Main env cfg s (done ++ block :: rest)) (hdone : done ≠ [])
    (hserves : Serves des enc loaded s) :
    ∃ msg, handleSyncBlock env loaded s (UInt32.ofNat done.length) = .ok msg ∧
      Brings des msg block := by
  have hlen : s.mainChain.headerChain.length = done.length + (rest.length + 1) := by
    rw [h.chain, List.length_map, List.length_append, List.length_cons]
  have hshort := hserves.1
  have hstored := h.stored block (by simp)
  have hlink : block.header.prevBlockHeader.isSome := by
    apply linked_tail h.ledger
    rw [List.tail_append_of_ne_nil hdone]
    simp
  have hsend := hs.deliverable hkeep hgen hserves hstored hlink
  obtain ⟨p, hp, hback⟩ := bind_eq_ok.mp (roundTrip_ok hr hsend)
  refine ⟨⟨p, false⟩, ?_, rfl, _, _, hback, sameBlock_delivered hsend, fun na ↦
    (sameOnWire_delivered na hsend).hash⟩
  have hle : ¬ currentHeight s.mainChain.headerChain < UInt32.ofNat done.length := by
    rw [currentHeight_lt (List.length_pos_iff.mpr hdone) (by omega) hserves.1]
    omega
  have hat : getHeader s.mainChain.headerChain (UInt32.ofNat done.length) = .ok block.header := by
    rw [getHeader, UInt32.toNat_ofNat', Nat.mod_eq_of_lt (by omega), h.chain]
    simp
  rw [handleSyncBlock_ok (requestedBlock_ok hle hat hstored)]
  exact bind_eq_ok.mpr ⟨_, hp, rfl⟩

theorem take_next {node : ChainManager} {msg : InfoBlock} (hcopy : Copy env cfg done node)
    (h : Main env cfg s (done ++ block :: rest)) (hmsg : Brings des msg block) :
    ∃ node', handleInfoBlockSync env cfg des msg node =
        .ok (.request (UInt32.ofNat (done ++ [block]).length)) node' ∧
      Copy env cfg (done ++ [block]) node' := by
  obtain ⟨hrange, b, comps, hread, hsame, hhash⟩ := hmsg
  have hled := h.ledger
  rw [← List.singleton_append, ← List.append_assoc] at hled
  obtain ⟨cs, hnext, -⟩ := hled.rewind_to (by simp)
  obtain ⟨node', hadd, hcopy'⟩ := hcopy.next hnext hsame (hhash env.toSodium)
  refine ⟨node', ?_, hcopy'⟩
  have hnew : (node.blockStore.lookup (b.hash env.toSodium)).isSome = false := by
    rw [← Bool.not_eq_true, hhash]
    exact fun hsome ↦ h.hash_notMem (hcopy.store _ hsome)
  have hheight : currentHeight node'.mainChain.headerChain + 1 =
      UInt32.ofNat (done ++ [block]).length := by
    rw [currentHeight, hcopy'.length_eq, UInt32.sub_add_cancel]
  have hproven : Proven b := by
    rw [Proven, hsame.computations]
    exact ledger_proven h.ledger block (by simp)
  simp only [handleInfoBlockSync, hrange, hread, computeHash_proven _ hproven, Bool.false_eq_true,
    if_false, run_bind_ofExcept_ok, run_bind_get, hnew]
  rw [run_bind_of_ok hadd, if_pos rfl, run_bind_get, hheight]
  rfl

end Answers

section Steps

variable {s : Network} {msg : InfoBlock} {height : UInt32} {node : ChainManager}

theorem step_answer (hserving : s.serving = true) (hrequests : s.requests = [height])
    (hanswers : s.answers = []) (hmsg : handleSyncBlock env loaded s.peer height = .ok msg) :
    step env cfg des loaded s .answer = some { s with requests := [], answers := [msg] } := by
  simp only [step, hrequests, hserving, hmsg, hanswers, List.nil_append]
  rfl

theorem step_request (hlistening : s.listening = true) (hsynced : s.isSynced = false)
    (hpeer : s.syncPeer = true) (hrequests : s.requests = []) (hanswers : s.answers = [msg])
    (hmsg : handleInfoBlockSync env cfg des msg s.node = .ok (.request height) node) :
    step env cfg des loaded s .handleAnswer =
      some { s with node := node, requests := [height], answers := [], listening := true } := by
  simp only [step, hanswers, hlistening, route, hsynced, hmsg, hpeer, hrequests, List.nil_append]
  rfl

theorem step_synced (hlistening : s.listening = true) (hsynced : s.isSynced = false)
    (hpeer : s.syncPeer = true) (hanswers : s.answers = [msg]) (hrange : msg.outOfRange = true) :
    step env cfg des loaded s .handleAnswer =
      some { s with isSynced := true, answers := [], listening := true } := by
  have hmsg : handleInfoBlockSync env cfg des msg s.node = .ok .synced s.node := by
    rw [handleInfoBlockSync, if_pos hrange]
    rfl
  simp only [step, hanswers, hlistening, route, hsynced, hmsg, hpeer]
  rfl

end Steps

section Runs

variable {start s s' : Network} {done rest : List Block}

/-- The node takes blocks from its sync peer only, whose main chain gets longer
at most. -/
def Undisturbed (env : Env) (cfg : Config) (des : Deserialize fhe) (enc : Encryption fhe)
    (loaded : Block → List (FHEComputer fhe)) (s : Network) : Event → Prop
  | .startSync found => found = true
  | .answer | .handleAnswer => True
  | .infoBlock _ | .sendBlock _ | .nodeEvent _ => False
  | .peerEvent event => Proper env cfg des s.peer event ∧
    ∀ peer, after env cfg event s.peer = some peer →
      hashes env s.peer <+: hashes env peer ∧ Serves des enc loaded peer

def Whole (env : Env) (cfg : Config) (des : Deserialize fhe) (enc : Encryption fhe)
    (loaded : Block → List (FHEComputer fhe)) (start s : Network) : Prop :=
  ∃ t, Run (step env cfg des loaded) (Undisturbed env cfg des enc loaded) start t ∧
    Run (step env cfg des loaded) (Undisturbed env cfg des enc loaded) t s ∧
    hashes env s.node = hashes env t.peer ∧ s.node.chainstate = t.peer.chainstate

/-- How far the sync is. The node has the blocks `done` of its peer and `rest` is
left, and `whole` tells whether there was nothing left at the last request. -/
inductive Phase (des : Deserialize fhe) (done rest : List Block) (whole : Prop) (s : Network) : Prop
  | idle : s.started = false → s.isSynced = false → s.requests = [] → s.answers = [] →
      done.length = 1 → Phase des done rest whole s
  | asking : s.started = true → s.syncPeer = true → s.isSynced = false →
      s.requests = [UInt32.ofNat done.length] → s.answers = [] → Phase des done rest whole s
  | bringing {msg : InfoBlock} {block : Block} {later : List Block} : s.started = true →
      s.syncPeer = true → s.isSynced = false → s.requests = [] → s.answers = [msg] →
      Brings des msg block → rest = block :: later → Phase des done rest whole s
  | ending {msg : InfoBlock} : s.started = true → s.syncPeer = true → s.isSynced = false →
      s.requests = [] → s.answers = [msg] → msg.outOfRange = true → whole →
      Phase des done rest whole s
  | synced : s.started = true → s.isSynced = true → s.requests = [] → s.answers = [] → whole →
      Phase des done rest whole s

structure CatchingUp (env : Env) (cfg : Config) (des : Deserialize fhe) (enc : Encryption fhe)
    (loaded : Block → List (FHEComputer fhe)) (genesis : Block) (start s : Network) : Prop where
  source : Source env cfg genesis s.peer
  serves : Serves des enc loaded s.peer
  listening : s.listening = true
  serving : s.serving = true
  reached : Run (step env cfg des loaded) (Undisturbed env cfg des enc loaded) start s
  phase : ∃ done rest, Copy env cfg done s.node ∧ Main env cfg s.peer (done ++ rest) ∧
    Phase des done rest (Whole env cfg des enc loaded start s) s

theorem Copy.hashes_eq {node : ChainManager} (h : Copy env cfg blocks node) :
    hashes env node = blocks.map (Block.hash env.toSodium) := by
  have hfirst := congrArg (List.map Prod.fst) h.chain
  rw [List.map_map, List.map_map, List.map_map] at hfirst
  exact hfirst

theorem Whole.next {event : Event} (h : Whole env cfg des enc loaded start s)
    (hC : Undisturbed env cfg des enc loaded s event)
    (hstep : step env cfg des loaded s event = some s') (hnode : s'.node = s.node) :
    Whole env cfg des enc loaded start s' := by
  obtain ⟨t, hrun, hrest, hsame, hcs⟩ := h
  refine ⟨t, hrun, hrest.next hC hstep, ?_, ?_⟩
  · rw [hnode, hsame]
  · rw [hnode, hcs]

theorem whole_of_copy {event : Event}
    (hrun : Run (step env cfg des loaded) (Undisturbed env cfg des enc loaded) start s)
    (hC : Undisturbed env cfg des enc loaded s event)
    (hstep : step env cfg des loaded s event = some s') (hnode : s'.node = s.node)
    (hcopy : Copy env cfg blocks s.node) (hmain : Main env cfg s.peer blocks) :
    Whole env cfg des enc loaded start s' := by
  refine ⟨s, hrun, Run.start.next hC hstep, ?_, ?_⟩
  · rw [hnode, hmain.hashes_eq]
    exact Copy.hashes_eq hcopy
  · rw [hnode]
    exact hcopy.ledger.unique hmain.ledger

theorem CatchingUp.answer (hr : Reads des) (hkeep : KeepsContext enc)
    (hgen : genesis.header.prevBlockHeader = none)
    (h : CatchingUp env cfg des enc loaded genesis start s)
    (hstep : step env cfg des loaded s .answer = some s') :
    CatchingUp env cfg des enc loaded genesis start s' := by
  obtain ⟨done, rest, hcopy, hmain, hphase⟩ := h.phase
  have hC : Undisturbed env cfg des enc loaded s .answer := trivial
  have hreached := h.reached.next hC hstep
  cases hphase with
  | idle _ _ hrequests _ _ => simp [step, hrequests] at hstep
  | bringing _ _ _ hrequests _ _ _ => simp [step, hrequests] at hstep
  | ending _ _ _ hrequests _ _ _ => simp [step, hrequests] at hstep
  | synced _ _ hrequests _ _ => simp [step, hrequests] at hstep
  | asking hstarted hpeer hsynced hrequests hanswers =>
    cases rest with
    | nil =>
      rw [List.append_nil] at hmain
      have hstep' := @step_answer env cfg _ des loaded _ _ _ h.serving hrequests hanswers
        (answer_outOfRange hmain h.serves)
      obtain rfl := Option.some.inj (hstep.symm.trans hstep')
      refine ⟨h.source, h.serves, h.listening, h.serving, hreached, done, [], hcopy, ?_, ?_⟩
      · rwa [List.append_nil]
      · exact .ending hstarted hpeer hsynced rfl rfl rfl
          (whole_of_copy h.reached hC hstep rfl hcopy hmain)
    | cons block later =>
      obtain ⟨msg, hmsg, hbrings⟩ :=
        answer_brings hr hkeep hgen h.source hmain hcopy.ledger.ne_nil h.serves
      have hstep' := @step_answer env cfg _ des loaded _ _ _ h.serving hrequests hanswers hmsg
      obtain rfl := Option.some.inj (hstep.symm.trans hstep')
      exact ⟨h.source, h.serves, h.listening, h.serving, hreached, done, block :: later, hcopy,
        hmain, .bringing hstarted hpeer hsynced rfl rfl hbrings rfl⟩

theorem CatchingUp.handleAnswer (h : CatchingUp env cfg des enc loaded genesis start s)
    (hstep : step env cfg des loaded s .handleAnswer = some s') :
    CatchingUp env cfg des enc loaded genesis start s' ∧
      (s'.isSynced = true ∨ ∃ hash, hashes env s'.node = hashes env s.node ++ [hash]) := by
  obtain ⟨done, rest, hcopy, hmain, hphase⟩ := h.phase
  have hC : Undisturbed env cfg des enc loaded s .handleAnswer := trivial
  have hreached := h.reached.next hC hstep
  cases hphase with
  | idle _ _ _ hanswers _ => simp [step, hanswers] at hstep
  | asking _ _ _ _ hanswers => simp [step, hanswers] at hstep
  | synced _ _ _ hanswers _ => simp [step, hanswers] at hstep
  | @bringing msg block later hstarted hpeer hsynced hrequests hanswers hbrings hrest =>
    subst hrest
    obtain ⟨node, hmsg, hcopy'⟩ := take_next hcopy hmain hbrings
    have hstep' := @step_request env cfg _ des loaded _ _ _ _ h.listening hsynced hpeer hrequests
      hanswers hmsg
    obtain rfl := Option.some.inj (hstep.symm.trans hstep')
    refine ⟨⟨h.source, h.serves, rfl, h.serving, hreached, done ++ [block], later, hcopy', ?_,
      .asking hstarted hpeer hsynced rfl rfl⟩, .inr ⟨block.hash env.toSodium, ?_⟩⟩
    · rw [List.append_assoc, List.singleton_append]
      exact hmain
    · rw [Copy.hashes_eq hcopy', Copy.hashes_eq hcopy, List.map_append, List.map_singleton]
  | ending hstarted hpeer hsynced hrequests hanswers hrange hwhole =>
    have hstep' := @step_synced env cfg _ des loaded _ _ h.listening hsynced hpeer hanswers hrange
    obtain rfl := Option.some.inj (hstep.symm.trans hstep')
    exact ⟨⟨h.source, h.serves, rfl, h.serving, hreached, done, rest, hcopy, hmain,
      .synced hstarted rfl hrequests rfl (hwhole.next hC hstep rfl)⟩, .inl rfl⟩

theorem CatchingUp.startSync (h : CatchingUp env cfg des enc loaded genesis start s)
    (hstep : step env cfg des loaded s (.startSync true) = some s') :
    CatchingUp env cfg des enc loaded genesis start s' := by
  obtain ⟨done, rest, hcopy, hmain, hphase⟩ := h.phase
  have hC : Undisturbed env cfg des enc loaded s (.startSync true) := rfl
  have hreached := h.reached.next hC hstep
  cases hphase with
  | asking hstarted _ _ _ _ => simp [step, hstarted] at hstep
  | bringing hstarted _ _ _ _ _ _ => simp [step, hstarted] at hstep
  | ending hstarted _ _ _ _ _ _ => simp [step, hstarted] at hstep
  | synced hstarted _ _ _ _ => simp [step, hstarted] at hstep
  | idle hstarted hsynced hrequests hanswers hdone =>
    have hstep' : step env cfg des loaded s (.startSync true) =
        some { s with started := true, syncPeer := true, requests := [1] } := by
      simp only [step, hstarted, hrequests, List.nil_append]
      rfl
    obtain rfl := Option.some.inj (hstep.symm.trans hstep')
    refine ⟨h.source, h.serves, h.listening, h.serving, hreached, done, rest, hcopy, hmain,
      .asking rfl rfl hsynced ?_ hanswers⟩
    rw [hdone]
    rfl

theorem Phase.later {more : List Block} {whole whole' : Prop} (h : Phase des done rest whole s)
    (hwhole : whole → whole') (hstarted : s'.started = s.started)
    (hpeer : s'.syncPeer = s.syncPeer) (hsynced : s'.isSynced = s.isSynced)
    (hrequests : s'.requests = s.requests) (hanswers : s'.answers = s.answers) :
    Phase des done (rest ++ more) whole' s' := by
  cases h with
  | idle h₁ h₂ h₃ h₄ h₅ =>
    exact .idle (hstarted.trans h₁) (hsynced.trans h₂) (hrequests.trans h₃) (hanswers.trans h₄) h₅
  | asking h₁ h₂ h₃ h₄ h₅ =>
    exact .asking (hstarted.trans h₁) (hpeer.trans h₂) (hsynced.trans h₃) (hrequests.trans h₄)
      (hanswers.trans h₅)
  | bringing h₁ h₂ h₃ h₄ h₅ hbrings hrest =>
    exact .bringing (hstarted.trans h₁) (hpeer.trans h₂) (hsynced.trans h₃) (hrequests.trans h₄)
      (hanswers.trans h₅) hbrings (by rw [hrest, List.cons_append])
  | ending h₁ h₂ h₃ h₄ h₅ hrange hw =>
    exact .ending (hstarted.trans h₁) (hpeer.trans h₂) (hsynced.trans h₃) (hrequests.trans h₄)
      (hanswers.trans h₅) hrange (hwhole hw)
  | synced h₁ h₂ h₃ h₄ hw =>
    exact .synced (hstarted.trans h₁) (hsynced.trans h₂) (hrequests.trans h₃) (hanswers.trans h₄)
      (hwhole hw)

theorem leads_of_after {event : Node.Event} {u v : ChainManager}
    (h : after env cfg event u = some v) : Leads (handle env cfg event) u v := by
  rw [after] at h
  split at h
  next a t ht =>
    obtain rfl := Option.some.inj h
    exact .inl ⟨a, ht⟩
  next e t ht =>
    obtain rfl := Option.some.inj h
    exact .inr ⟨e, ht⟩
  next => contradiction

theorem CatchingUp.peerEvent {event : Node.Event}
    (hgen : Block.genesis env.toSodium cfg.timestamp cfg.difficulty cfg.publicKey cfg.reward =
      .ok genesis) (h : CatchingUp env cfg des enc loaded genesis start s)
    (hC : Undisturbed env cfg des enc loaded s (.peerEvent event))
    (hstep : step env cfg des loaded s (.peerEvent event) = some s') :
    CatchingUp env cfg des enc loaded genesis start s' := by
  obtain ⟨done, rest, hcopy, hmain, hphase⟩ := h.phase
  have hreached := h.reached.next hC hstep
  obtain ⟨peer, hpeer, hs'⟩ := Option.map_eq_some_iff.mp hstep
  obtain ⟨hproper, hlonger⟩ := id hC
  obtain ⟨hgrow, hserves⟩ := hlonger peer hpeer
  have hleads := leads_of_after hpeer
  have hsource : Source env cfg genesis peer := hleads.of_post (h.source.handle hgen hproper)
  have hstore : Grows s.peer.blockStore peer.blockStore :=
    hleads.of_post (post_handle_store (P := Grows s.peer.blockStore)
      (fun store head block hP k b hk ↦ grows_storeBlock _ _ _ k b (hP k b hk))
      (fun _ _ hk ↦ hk) event)
  obtain ⟨more, hmain'⟩ := hmain.grow hsource hstore hgrow
  rw [List.append_assoc] at hmain'
  subst hs'
  exact ⟨hsource, hserves, h.listening, h.serving, hreached, done, rest ++ more, hcopy, hmain',
    hphase.later (fun hw ↦ hw.next hC hstep rfl) rfl rfl rfl rfl rfl⟩

theorem catchingUp (hr : Reads des) (hkeep : KeepsContext enc)
    (hgen : Block.genesis env.toSodium cfg.timestamp cfg.difficulty cfg.publicKey cfg.reward =
      .ok genesis) (hstart : CatchingUp env cfg des enc loaded genesis start start)
    (hrun : Run (step env cfg des loaded) (Undisturbed env cfg des enc loaded) start s) :
    CatchingUp env cfg des enc loaded genesis start s := by
  refine hrun.invariant hstart fun t event u ht hC hstep ↦ ?_
  cases event with
  | startSync found =>
    obtain rfl : found = true := hC
    exact ht.startSync hstep
  | answer => exact ht.answer hr hkeep (genesis_unlinked hgen) hstep
  | handleAnswer => exact (ht.handleAnswer hstep).1
  | infoBlock msg => exact hC.elim
  | sendBlock msg => exact hC.elim
  | nodeEvent event => exact hC.elim
  | peerEvent event => exact ht.peerEvent hgen hC hstep

theorem CatchingUp.goes_on (hr : Reads des) (hkeep : KeepsContext enc)
    (hgen : genesis.header.prevBlockHeader = none)
    (h : CatchingUp env cfg des enc loaded genesis start s) (hstarted : s.started = true)
    (hsyncing : s.isSynced = false) :
    (step env cfg des loaded s .answer).isSome ∨
      (step env cfg des loaded s .handleAnswer).isSome := by
  obtain ⟨done, rest, hcopy, hmain, hphase⟩ := h.phase
  cases hphase with
  | idle hidle _ _ _ _ => exact absurd (hstarted.symm.trans hidle) (by simp)
  | synced _ hsynced _ _ _ => exact absurd (hsyncing.symm.trans hsynced) (by simp)
  | asking _ _ _ hrequests hanswers =>
    left
    cases rest with
    | nil =>
      rw [List.append_nil] at hmain
      rw [step_answer h.serving hrequests hanswers (answer_outOfRange hmain h.serves)]
      rfl
    | cons block later =>
      obtain ⟨msg, hmsg, -⟩ :=
        answer_brings hr hkeep hgen h.source hmain hcopy.ledger.ne_nil h.serves
      rw [step_answer h.serving hrequests hanswers hmsg]
      rfl
  | bringing _ hpeer hsynced hrequests hanswers hbrings hrest =>
    right
    subst hrest
    obtain ⟨node, hmsg, -⟩ := take_next hcopy hmain hbrings
    rw [step_request h.listening hsynced hpeer hrequests hanswers hmsg]
    rfl
  | ending _ hpeer hsynced _ hanswers hrange _ =>
    right
    rw [step_synced h.listening hsynced hpeer hanswers hrange]
    rfl

end Runs

section Sample

def samplePeer : ChainManager :=
  match handle sampleEnv sampleConfig (.block sampleLoaded.1 none) sampleStart with
  | .ok _ t => t
  | .error _ _ => sampleStart

def sampleLinked : Block := link sampleEnv sampleGenesis.header sampleLoaded.1

theorem samplePeer_taken : ∃ added,
    handle sampleEnv sampleConfig (.block sampleLoaded.1 none) sampleStart =
      .ok added samplePeer ∧
    samplePeer.mainChain.headerChain.length = 2 ∧
    samplePeer.blockStore = (sampleStart.blockStore.storeBlock
      (sampleLoaded.1.hash sampleEnv.toSodium) sampleLinked).1 := by
  have hok : returns (handle sampleEnv sampleConfig (.block sampleLoaded.1 none)) sampleStart
      (fun _ t ↦ decide (t = samplePeer ∧ t.mainChain.headerChain.length = 2 ∧ t.blockStore =
        (sampleStart.blockStore.storeBlock (sampleLoaded.1.hash sampleEnv.toSodium)
          sampleLinked).1)) = true := by decide +kernel
  obtain ⟨added, t, ht, htest⟩ := returns_iff.mp hok
  obtain ⟨hpeer, hfacts⟩ := of_decide_eq_true htest
  rw [← hpeer]
  exact ⟨added, ht, hfacts⟩

theorem samplePeer_serves :
    Serves byteDes byteEnc (fun _ ↦ sampleLoaded.2) samplePeer := by
  obtain ⟨-, -, hlen, hstore⟩ := samplePeer_taken
  have hcomplete : ∀ comp ∈ sampleLoaded.2, comp.lastRes.isSome ∧ comp.proof ≠ [] := by
    decide +kernel
  have hread : Block.fromProto byteDes sampleMessage = .ok (sampleLoaded.1, sampleLoaded.2) :=
    sampleLoaded_read
  have hloads : Loads byteDes byteEnc sampleLoaded.1 sampleLoaded.2 :=
    loads_of_fromProto hread hcomplete
  have hshort : samplePeer.mainChain.headerChain.length < 2 ^ 32 := by
    rw [hlen]
    omega
  refine ⟨hshort, fun k b hk hlink ↦ ?_⟩
  rw [hstore] at hk
  rcases storeBlock_cases hk with hold | ⟨-, -, rfl⟩
  · rw [sampleStart, started_lookup] at hold
    split_ifs at hold
    obtain rfl := Option.some.inj hold
    rw [genesis_unlinked genesis_sample] at hlink
    exact absurd hlink Bool.false_ne_true
  · exact ⟨hloads.produced, hloads.computations, hloads.complete⟩

theorem samplePeer_past : Node.Run sampleEnv sampleConfig (Proper sampleEnv sampleConfig byteDes)
    sampleStart samplePeer := by
  obtain ⟨added, htaken, -, -⟩ := samplePeer_taken
  have hattach : canAttach sampleEnv sampleStart.mainChain.headerChain
      sampleLoaded.1.header = true := by decide +kernel
  have hnovel : Novel sampleEnv sampleStart (.block sampleLoaded.1 none) := by decide +kernel
  have hdelivered : Delivered sampleEnv sampleConfig (Valid sampleEnv sampleConfig) sampleStart
      (.block sampleLoaded.1 none) := hnovel.delivered
  have hsent : Sent byteDes sampleEnv sampleStart (.block sampleLoaded.1 none) :=
    ⟨⟨_, _, sampleLoaded_read⟩, fun k fork hoff _ ↦
      absurd (hattach.symm.trans hoff.2) (by simp)⟩
  exact .step .start ⟨hdelivered, hsent⟩ (.inl ⟨added, htaken⟩)

def sampleSync : List Event := [.startSync true, .answer, .handleAnswer, .answer, .handleAnswer]

theorem sampleSync_undisturbed : ∀ event ∈ sampleSync, ∀ s : Network,
    Undisturbed sampleEnv sampleConfig byteDes byteEnc (fun _ ↦ sampleLoaded.2) s event := by
  intro event hevent s
  simp only [sampleSync, List.mem_cons, List.not_mem_nil, or_false] at hevent
  rcases hevent with rfl | rfl | rfl | rfl | rfl
  · rfl
  all_goals trivial

end Sample

end FheBlockchain.Chain.CatchUp
