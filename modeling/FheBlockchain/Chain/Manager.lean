import FheBlockchain.Chain.Validation
import FheBlockchain.Store.Coins

namespace FheBlockchain.Chain.Manager

open Core.Transactions Core.Blocks Store.Chainstate Store.Pools Store.Coins Validation
open Library.Execution (Exec)

/-- Total difficulties are sums over header chains shorter than an epoch, which
64 bits hold. -/
structure MainChain where
  headerChain : List BlockHeader
  totalDifficulty : ℕ
deriving DecidableEq

structure Fork where
  chainSrc : UInt32
  chainSrcHeader : BlockHeader
  headerChain : List BlockHeader
  totalDifficulty : ℕ
deriving DecidableEq

structure ChainManager where
  mainChain : MainChain
  forks : List Fork
  chainstate : MemChainstate
  blockStore : MemBlockStore
  memPool : MemPool
  compStore : MemCompStore
  wallet : Wallet
deriving DecidableEq

abbrev M := Exec Exception Undefined ChainManager

variable (env : Env) (cfg : Config)

def onChainstate {α : Type} (x : Store.Chainstate.M α) : M α :=
  Exec.focus ChainManager.chainstate (fun s cs ↦ { s with chainstate := cs }) x

def onMemPool {α : Type} (x : MemPool.M α) : M α :=
  Exec.focus ChainManager.memPool (fun s pool ↦ { s with memPool := pool }) x

def onWallet {α : Type} (x : Store.Coins.M α) : M α :=
  Exec.focus ChainManager.wallet (fun s w ↦ { s with wallet := w }) x

/-- `prev_block_header_` is set when a chain takes a header in. -/
def link (head : BlockHeader) (block : Block) : Block :=
  { block with header := { block.header with prevBlockHeader := some (head.hash env.toSodium) } }

def backOf (chain : List BlockHeader) : Result BlockHeader :=
  match chain.getLast? with
  | some head => .ok head
  | none => .error (.abort .indexOutOfRange)

def storeBlock (block : Block) : M Unit := do
  let hash ← Exec.ofExcept (block.computeHash env.toSodium)
  modify fun s ↦ { s with blockStore := (s.blockStore.storeBlock hash block).1 }

/-- The end of `Chain::append_block`, for a block that is attached and valid. -/
def extendMain (block : Block) (txs : List PooledTx) (head : BlockHeader) (newHeight : ℕ) :
    M Unit := do
  let block := link env head block
  modify fun s ↦ { s with
    mainChain := { s.mainChain with headerChain := s.mainChain.headerChain ++ [block.header] } }
  onChainstate (addBlock env.toSodium block (UInt32.ofNat newHeight))
  storeBlock env block
  onMemPool (MemPool.spendBlock env.toSodium txs)
  modify fun s ↦ { s with compStore := MemCompStore.spendBlock env.toSodium s.compStore block }
  modify fun s ↦ { s with
    mainChain := { s.mainChain with
      totalDifficulty := s.mainChain.totalDifficulty + block.header.difficulty.toNat } }

/-- The transactions of a block that was not validated here, with the amounts
that their inputs were given elsewhere. -/
def withAmounts (block : Block) (amounts : List (List UInt64)) : List PooledTx :=
  block.transactions.zipIdx.map fun tx ↦ { tx := tx.1, inAmounts := amounts.getD tx.2 [] }

/-- `Chain::append_block` on the main chain. With `is_already_valid` set, the
block comes with the amounts of its inputs instead of being validated. -/
def appendBlock (block : Block) (alreadyValid : Option (List (List UInt64))) : M Bool := do
  let s ← get
  let newHeight := s.mainChain.headerChain.length
  let head ← Exec.ofExcept (backOf s.mainChain.headerChain)
  if block.header.prevHash ≠ head.hash env.toSodium then
    throw (invalidArgument "Cannot attach block to chain")
  let checked ← match alreadyValid with
    | some amounts => pure (some (withAmounts block amounts))
    | none => Exec.ofExcept (validateBlock env cfg s.mainChain.headerChain s.chainstate block
        (UInt32.ofNat newHeight))
  match checked with
  | none => return false
  | some txs =>
    if block.header.timestamp ≤ head.timestamp then return false
    extendMain env block txs head newHeight
    return true

def canAttach (chain : List BlockHeader) (header : BlockHeader) : Bool :=
  match chain.getLast? with
  | none => true
  | some back => header.prevHash = back.hash env.toSodium

namespace Fork

def currentForkHeight (fork : Fork) : UInt32 :=
  UInt32.ofNat (fork.chainSrc.toNat + fork.headerChain.length)

def head (fork : Fork) : BlockHeader := fork.headerChain.getLastD fork.chainSrcHeader

/-- `Fork::append_block`, which validates the header only. -/
def appendBlock (fork : Fork) (block : Block) : M (Fork × Bool) := do
  let newHeight := fork.currentForkHeight + 1
  if !canAttach env fork.headerChain block.header then
    throw (invalidArgument "Could not attach block to this fork.")
  if !(← Exec.ofExcept
      (validateHeaderUnsafe env cfg fork.headerChain block.header newHeight)) then
    return (fork, false)
  let block := link env fork.head block
  storeBlock env block
  return ({ fork with
    headerChain := fork.headerChain ++ [block.header]
    totalDifficulty := fork.totalDifficulty + block.header.difficulty.toNat }, true)

end Fork

def rewindHeaders (headers : List BlockHeader) : M Unit :=
  headers.forM fun header ↦ do
    let block ← Exec.ofExcept ((← get).blockStore.getBlock (header.hash env.toSodium))
    onChainstate (rewindBlock env.toSodium block)

def truncateMain (size : ℕ) : M Unit :=
  modify fun s ↦ { s with
    mainChain := { s.mainChain with headerChain := s.mainChain.headerChain.take size } }

def setTotalDifficulty (total : ℕ) : M Unit :=
  modify fun s ↦ { s with mainChain := { s.mainChain with totalDifficulty := total } }

/-- Appends the blocks of a fork up to the first one that is refused, and
returns the position of that one. -/
def appendFork : ℕ → List BlockHeader → M (Option ℕ)
  | _, [] => return none
  | idx, header :: headers => do
    let block ← Exec.ofExcept ((← get).blockStore.getBlock (header.hash env.toSodium))
    if ← appendBlock env cfg block none then appendFork (idx + 1) headers
    else return some idx

def reappendOld (headers : List BlockHeader) : M Unit :=
  headers.forM fun header ↦ do
    let block ← Exec.ofExcept ((← get).blockStore.getBlock (header.hash env.toSodium))
    if ← appendBlock env cfg block none then return () else throw (.abort .assertion)

/-- The fork without its headers from `idx` on. The loop that takes off their
difficulties counts an unsigned index down and never ends at `idx = 0`. -/
def trimFork (fork : Fork) (idx : ℕ) : Result Fork :=
  if idx = 0 then .error (.abort .indexOutOfRange)
  else .ok { fork with
    headerChain := fork.headerChain.take idx
    totalDifficulty := (fork.headerChain.drop idx).reverse.foldl
      (fun total header ↦ total - header.difficulty.toNat) fork.totalDifficulty }

/-- `ChainManager::reorg` to the fork at position `k` of `forks_`. -/
def reorg (k : ℕ) (fork : Fork) : M Unit := do
  let main := (← get).mainChain
  let src := fork.chainSrc.toNat
  let srcHeader ← Exec.ofExcept (headerAt main.headerChain fork.chainSrc)
  let oldMainFork : Fork := {
    chainSrc := fork.chainSrc
    chainSrcHeader := srcHeader
    headerChain := main.headerChain.drop (src + 1)
    totalDifficulty := main.totalDifficulty }
  rewindHeaders env (main.headerChain.drop (src + 1)).reverse
  truncateMain (src + 1)
  match ← appendFork env cfg 0 fork.headerChain with
  | some idx =>
    rewindHeaders env ((← get).mainChain.headerChain.drop (src + 1)).reverse
    truncateMain (src + 1)
    reappendOld env cfg oldMainFork.headerChain
    let fork ← Exec.ofExcept (trimFork fork idx)
    modify fun s ↦ { s with forks := s.forks.set k fork }
    setTotalDifficulty main.totalDifficulty
  | none =>
    modify fun s ↦ { s with forks := s.forks.eraseIdx k }
    setTotalDifficulty fork.totalDifficulty
    modify fun s ↦ { s with forks := s.forks ++ [oldMainFork] }
  let s ← get
  onWallet (rescan env.toSodium s.mainChain.headerChain s.blockStore)

def updateWallet (block : Block) : M Unit := do
  onWallet (filterBlock env.toSodium block)
  modify fun s ↦ { s with wallet := spendBlock block s.wallet }

def appendAndUpdate (block : Block) (alreadyValid : Option (List (List UInt64))) : M Bool := do
  let added ← appendBlock env cfg block alreadyValid
  if added then updateWallet env block
  return added

def findAttachment (header : BlockHeader) : ℕ → ℕ → List BlockHeader → Option (ℕ × BlockHeader × ℕ)
  | _, _, [] => none
  | i, total, src :: chain =>
    let total := total + src.difficulty.toNat
    if header.prevHash = src.hash env.toSodium then some (i, src, total)
    else findAttachment header (i + 1) total chain

def addToFork (k : ℕ) (fork : Fork) (block : Block) : M Bool := do
  let (fork, added) ← fork.appendBlock env cfg block
  if !added then return false
  modify fun s ↦ { s with forks := s.forks.set k fork }
  if (← get).mainChain.totalDifficulty < fork.totalDifficulty then reorg env cfg k fork
  return true

def addNewFork (block : Block) : M Bool := do
  match findAttachment env block.header 0 0 (← get).mainChain.headerChain with
  | none => return false
  | some (i, src, total) =>
    let fork : Fork := {
      chainSrc := UInt32.ofNat i
      chainSrcHeader := src
      headerChain := []
      totalDifficulty := total }
    let (fork, added) ← fork.appendBlock env cfg block
    if !added then return false
    modify fun s ↦ { s with forks := s.forks ++ [fork] }
    return true

def findFork (header : BlockHeader) : ℕ → List Fork → Option (ℕ × Fork)
  | _, [] => none
  | k, fork :: forks =>
    if canAttach env fork.headerChain header then some (k, fork)
    else findFork header (k + 1) forks

/-- `ChainManager::add_block`; `mined` holds the amounts of a block that is
handed in with `is_main_and_valid` set. -/
def addBlock (block : Block) (mined : Option (List (List UInt64))) : M Bool := do
  let s ← get
  if mined.isSome then appendAndUpdate env cfg block mined
  else if canAttach env s.mainChain.headerChain block.header then
    appendAndUpdate env cfg block none
  else
    match findFork env block.header 0 s.forks with
    | some (k, fork) => addToFork env cfg k fork block
    | none => addNewFork env cfg block

/-- The constructor. A genesis block with another hash than the configured one
aborts the program. -/
def create (wallet : Wallet) : Result ChainManager := do
  let genesis ←
    Block.genesis env.toSodium cfg.timestamp cfg.difficulty cfg.publicKey cfg.reward
  if cfg.hash ≠ genesis.hash env.toSodium then throw (.abort .assertion)
  match Store.Chainstate.addBlock env.toSodium genesis 0 MemChainstate.empty with
  | .error e _ => throw e
  | .ok _ cs => return {
      mainChain := {
        headerChain := [genesis.header]
        totalDifficulty := genesis.header.difficulty.toNat }
      forks := []
      chainstate := cs
      blockStore := (MemBlockStore.storeBlock ∅ (genesis.hash env.toSodium) genesis).1
      memPool := .empty
      compStore := ∅
      wallet := wallet }

end FheBlockchain.Chain.Manager
