import FheBlockchain.Store.Pools

namespace FheBlockchain.Store.Coins

open Core.Transactions Core.Blocks Pools
open Library.Execution (Exec)

structure Coin where
  input : TransactionInput
  amount : UInt64
deriving DecidableEq, Repr

structure Wallet where
  publicKey : PublicKey
  coins : Finmap fun _ : Bytes ↦ Coin
deriving DecidableEq

abbrev M := Exec Exception Undefined Wallet

variable (na : Sodium)

/-- `TXID()` is called for the outputs that pay this wallet only. -/
def filterOutput (tx : Transaction) (outp : TransactionOutput × ℕ) : M Unit := do
  if outp.1.publicKey = (← get).publicKey then
    let txid ← Exec.ofExcept (tx.txid na)
    let coin := { input := .unsigned txid (UInt64.ofNat outp.2), amount := outp.1.amount }
    modify fun w ↦ { w with coins := w.coins.insert coin.input.key coin }

def filterTransaction (tx : Transaction) : M Unit := tx.outputs.zipIdx.forM (filterOutput na tx)

def filterBlock (block : Block) : M Unit := block.transactions.forM (filterTransaction na)

def spendTransaction (tx : Transaction) (w : Wallet) : Wallet :=
  tx.inputs.foldl (fun w inp ↦ { w with coins := w.coins.erase inp.key }) w

def spendBlock (block : Block) (w : Wallet) : Wallet :=
  block.transactions.foldl (fun w tx ↦ spendTransaction tx w) w

def rescan (chain : List BlockHeader) (store : MemBlockStore) : M Unit := do
  modify fun w ↦ { w with coins := ∅ }
  chain.forM fun header ↦ do
    let block ← Exec.ofExcept (store.getBlock (header.hash na))
    modify (spendBlock block)
    filterBlock na block

end FheBlockchain.Store.Coins
