import FheBlockchain.Chain.Serving

namespace FheBlockchain.Chain.Routing

open Core.Transactions Core.Blocks Core.Messages Computer.Computations Computer.Messages Store.Pools
open Validation Manager Wire
open Sync (InfoBlock)
open Node (addTx addComputation)
open Library.Execution

/-- The messages of the router, but for those that the connection manager
answers. `invalid` stands for every type that the router does not know. -/
inductive Message
  | hello
  | invalid
  | invBlock (blockHash : Bytes)
  | getBlock (blockHash : Bytes)
  | infoBlock (msg : InfoBlock)
  | syncBlock (height : Int32)
  | invTransaction (txid : Bytes)
  | getTransaction (txid : Bytes)
  | infoTransaction (tx : ProtoTransaction)
  | invComputation (compHash : Bytes)
  | getComputation (compHash : Bytes)
  | infoComputation (comp : ProtoComputation)
  | syncTransactions
  | listTransactions (txids : List Bytes)

/-- What a handler sends out: its answer to the asking peer, what goes to all
peers and what goes to the sync peer. -/
structure Reaction where
  response : Option Message
  broadcasts : List Message
  toSyncPeer : List Message
  synced : Bool

namespace Reaction

def silent : Reaction := ⟨none, [], [], false⟩

def respond (msg : Message) : Reaction := ⟨some msg, [], [], false⟩

def broadcast (msgs : List Message) : Reaction := ⟨none, msgs, [], false⟩

def toSync (msg : Message) (synced : Bool) : Reaction := ⟨none, [], [msg], synced⟩

end Reaction

/-- What a node works with besides its state. `loaded` and `held` give the objects
behind the stored blocks and computations, and `listing` the TXIDs of the pool in
the order in which the map happens to have them. -/
structure Setup (fhe : OpenFhe) where
  env : Env
  cfg : Config
  des : Deserialize fhe
  loaded : Block → List (FHEComputer fhe)
  held : Computation → FHEComputer fhe
  listing : MemPool → List Bytes

variable {fhe : OpenFhe} (p : Setup fhe)

section Handlers

def handleInvBlock (blockHash : Bytes) : M Reaction := do
  if ((← get).blockStore.lookup blockHash).isSome then return .silent
  return .respond (.getBlock blockHash)

def handleGetBlock (blockHash : Bytes) : M Reaction := do
  match ← Exec.ofExcept (Serving.handleGetBlock p.loaded (← get) blockHash) with
  | none => return .silent
  | some msg => return .respond (.infoBlock msg)

/-- The block that is announced is read from the message once more. -/
def handleInfoBlock (msg : InfoBlock) : M Reaction := do
  if ← Sync.handleInfoBlock p.env p.cfg p.des msg then
    let (block, _) ← Exec.ofExcept (Block.fromProto p.des msg.block)
    return .broadcast [.invBlock (block.hash p.env.toSodium)]
  return .silent

def handleInfoBlockSync (msg : InfoBlock) : M Reaction := do
  match ← Sync.handleInfoBlockSync p.env p.cfg p.des msg with
  | .none => return .silent
  | .synced => return .toSync .syncTransactions true
  | .request height => return .toSync (.syncBlock height.toInt32) false

def handleSyncBlock (height : Int32) : M Reaction := do
  let msg ← Exec.ofExcept (Serving.handleSyncMessage p.env p.loaded (← get) height)
  return .respond (.infoBlock msg)

def handleInvTx (txid : Bytes) : M Reaction := do
  if ((← get).memPool.txStorage.lookup txid).isSome then return .silent
  return .respond (.getTransaction txid)

def handleGetTx (txid : Bytes) : M Reaction := do
  match (← get).memPool.txStorage.lookup txid with
  | none => return .silent
  | some pooled => return .respond (.infoTransaction (Transaction.toProto pooled.tx))

def handleInfoTx (msg : ProtoTransaction) : M Reaction := do
  let tx ← Exec.ofExcept (Transaction.fromProto msg false)
  let txid ← Exec.ofExcept (tx.txid p.env.toSodium)
  if ((← get).memPool.txStorage.lookup txid).isSome then return .silent
  if ← addTx p.env tx then return .broadcast [.invTransaction txid]
  return .silent

def handleInvComputation (compHash : Bytes) : M Reaction := do
  if ((← get).compStore.lookup compHash).isSome then return .silent
  return .respond (.getComputation compHash)

def handleGetComputation (compHash : Bytes) : M Reaction := do
  match (← get).compStore.lookup compHash with
  | none => return .silent
  | some comp => return .respond (.infoComputation (← Exec.ofExcept (FHEComputer.toProto (p.held comp))))

def readComputation (msg : ProtoComputation) : Result Computation := do
  (← FHEComputer.fromProto p.des msg).toComputation

def handleInfoComputation (msg : ProtoComputation) : M Reaction := do
  let comp ← Exec.ofExcept (readComputation p msg)
  if ((← get).compStore.lookup (comp.hash p.env.toSodium)).isSome then return .silent
  if ← addComputation p.env comp then
    return .broadcast [.invComputation (comp.hash p.env.toSodium)]
  return .silent

def handleSyncTransactions : M Reaction := do
  return .respond (.listTransactions (p.listing (← get).memPool))

def handleListTransactions (txids : List Bytes) : M Reaction := do
  return .broadcast (txids.map .getTransaction)

def route (isSynced : Bool) : Message → M Reaction
  | .hello => return .respond .invalid
  | .invalid => return .silent
  | .invBlock blockHash => handleInvBlock blockHash
  | .getBlock blockHash => handleGetBlock p blockHash
  | .infoBlock msg => if isSynced then handleInfoBlock p msg else handleInfoBlockSync p msg
  | .syncBlock height => handleSyncBlock p height
  | .invTransaction txid => handleInvTx txid
  | .getTransaction txid => handleGetTx txid
  | .infoTransaction tx => handleInfoTx p tx
  | .invComputation compHash => handleInvComputation compHash
  | .getComputation compHash => handleGetComputation p compHash
  | .infoComputation comp => handleInfoComputation p comp
  | .syncTransactions => handleSyncTransactions p
  | .listTransactions txids => handleListTransactions txids

/-- What a node does of its own accord: its RPC requests, and a block that its
miner has found. `tx` is what the wallet has made. -/
inductive Action (fhe : OpenFhe)
  | sayHello
  | transaction (tx : Transaction)
  | computation (comp : FHEComputer fhe)
  | minedBlock (block : Block) (amounts : List (List UInt64))

/-- Whatever becomes of the transaction, computation or block, it is announced. -/
def act : Action fhe → M Reaction
  | .sayHello => return .broadcast [.hello]
  | .transaction tx => do
    let _ ← addTx p.env tx
    let txid ← Exec.ofExcept (tx.txid p.env.toSodium)
    return .broadcast [.invTransaction txid]
  | .computation comp => do
    let comp ← Exec.ofExcept comp.toComputation
    let _ ← addComputation p.env comp
    return .broadcast [.invComputation (comp.hash p.env.toSodium)]
  | .minedBlock block amounts => do
    let _ ← addBlock p.env p.cfg block (some amounts)
    return .broadcast [.invBlock (block.hash p.env.toSodium)]

end Handlers

section Network

structure Party (N : Type) where
  manager : ChainManager
  isSynced : Bool
  syncPeer : Option N

structure Packet (N : Type) where
  sender : N
  receiver : N
  message : Message

/-- All nodes, and the messages on their way. A `listen` that has thrown reads no
more of its messages: they stay on their way. -/
structure State (N : Type) where
  parties : N → Party N
  flight : List (Packet N)

/-- `packet` is a message of some other program. -/
inductive Event (fhe : OpenFhe) (N : Type)
  | startSync (n : N) (peer : Option N)
  | action (n : N) (action : Action fhe)
  | packet (packet : Packet N)
  | deliver (i : ℕ)

variable {N : Type} (links : N → List N)

def toAll (n : N) (msg : Message) : List (Packet N) := (links n).map fun m ↦ ⟨n, m, msg⟩

def packets (n : N) (asker syncPeer : Option N) (r : Reaction) : List (Packet N) :=
  (asker.toList.flatMap fun m ↦ r.response.toList.map fun msg ↦ ⟨n, m, msg⟩) ++
    r.broadcasts.flatMap (toAll links n) ++
    syncPeer.toList.flatMap fun m ↦ r.toSyncPeer.map fun msg ↦ ⟨n, m, msg⟩

variable [DecidableEq N]

def State.setParty (n : N) (party : Party N) (s : State N) : State N :=
  { s with parties := Function.update s.parties n party }

def State.send (packets : List (Packet N)) (s : State N) : State N :=
  { s with flight := s.flight ++ packets }

/-- Runs a handler in a node. There is no next state where it aborts or uses a
sync peer that is not set. -/
def State.perform (n : N) (asker : Option N) (x : M Reaction) (s : State N) : Option (State N) :=
  let party := s.parties n
  match x party.manager with
  | .ok r manager =>
    if r.toSyncPeer ≠ [] ∧ party.syncPeer = none then none
    else some ((s.setParty n { party with
      manager := manager
      isSynced := party.isSynced || r.synced }).send (packets links n asker party.syncPeer r))
  | .error (.throw _) manager => some (s.setParty n { party with manager := manager })
  | .error (.abort _) _ => none

def State.receive (packet : Packet N) (s : State N) : Option (State N) :=
  s.perform links packet.receiver (some packet.sender)
    (route p (s.parties packet.receiver).isSynced packet.message)

def step (s : State N) : Event fhe N → Option (State N)
  | .startSync n peer =>
    let party := s.parties n
    if party.isSynced ∨ party.syncPeer.isSome then none
    else match peer with
      | none => some (s.setParty n { party with isSynced := true })
      | some m => some ((s.setParty n { party with syncPeer := some m }).send [⟨n, m, .syncBlock 1⟩])
  | .action n action => s.perform links n none (act p action)
  | .packet packet => some (s.send [packet])
  | .deliver i =>
    s.flight[i]?.bind fun packet ↦ { s with flight := s.flight.eraseIdx i }.receive p links packet

end Network

end FheBlockchain.Chain.Routing
