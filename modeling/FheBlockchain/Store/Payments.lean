import FheBlockchain.Core.Signing
import FheBlockchain.Library.Transitions
import FheBlockchain.Store.Coins

namespace FheBlockchain.Store.Payments

open Core.Transactions Core.Blocks
open Core.Signing hiding M
open Library.Execution (Exec)

/-- A wallet with its keys. Its coins are pointers to input objects, which it
shares with the transactions that it makes. -/
structure Wallet where
  publicKey : PublicKey
  secretKey : Vector UInt8 64
  coins : Finmap fun _ : Bytes ↦ ℕ
  memory : Memory
deriving DecidableEq

abbrev M := Exec Exception Undefined Wallet

def Wallet.empty (publicKey : PublicKey) (secretKey : Vector UInt8 64) : Wallet where
  publicKey := publicKey
  secretKey := secretKey
  coins := ∅
  memory := []

def Wallet.keep (obj : InputObject) (w : Wallet) : Wallet :=
  { w with
    coins := w.coins.insert obj.key w.memory.length
    memory := w.memory ++ [obj] }

def onMemory {α : Type} (x : Core.Signing.M α) : M α :=
  Exec.focus Wallet.memory (fun w mem ↦ { w with memory := mem }) x

section Blocks

variable (na : Sodium)

def filterOutput (tx : Transaction) (outp : TransactionOutput × ℕ) : M Unit := do
  if outp.1.publicKey = (← get).publicKey then
    let txid ← Exec.ofExcept (tx.txid na)
    let newInp := TransactionInput.unsigned txid (UInt64.ofNat outp.2)
    modify (Wallet.keep { newInp with amount := outp.1.amount })

def filterTransaction (tx : Transaction) : M Unit := tx.outputs.zipIdx.forM (filterOutput na tx)

def filterBlock (block : Block) : M Unit := block.transactions.forM (filterTransaction na)

def spendTransaction (tx : Transaction) (w : Wallet) : Wallet :=
  tx.inputs.foldl (fun w inp ↦ { w with coins := w.coins.erase inp.key }) w

def spendBlock (block : Block) (w : Wallet) : Wallet :=
  block.transactions.foldl (fun w tx ↦ spendTransaction tx w) w

end Blocks

def collect (total : UInt64) (inputs : List ℕ) (currentFunds : UInt64) :
    List (Σ _ : Bytes, ℕ) → Core.Signing.M (List ℕ × Bool)
  | [] => return (inputs, false)
  | pair :: rest => do
    let coin ← deref pair.2
    let inputs := inputs ++ [pair.2]
    let currentFunds := currentFunds + coin.amount
    if currentFunds ≥ total then return (inputs, true)
    collect total inputs currentFunds rest

/-- The map of the coins is unordered: `order` is the order in which the loop
comes to them. -/
def newTransaction (na : Signer) (order : List (Σ _ : Bytes, ℕ)) (recPubKey : PublicKey)
    (amount fee : UInt64) : M SharedTransaction := do
  let w ← get
  let (inputs, covered) ← onMemory (collect (amount + fee) [] 0 order)
  if !covered then throw (runtimeError "Not enough coins to create transaction.")
  let tx ← onMemory (SharedTransaction.construct inputs w.publicKey recPubKey amount fee)
  onMemory (tx.sign na w.publicKey w.secretKey)
  return tx

def Lists (order : List (Σ _ : Bytes, ℕ)) (w : Wallet) : Prop :=
  (order : Multiset (Σ _ : Bytes, ℕ)) = w.coins.entries

instance (order : List (Σ _ : Bytes, ℕ)) (w : Wallet) : Decidable (Lists order w) :=
  inferInstanceAs (Decidable (_ = _))

section Runs

inductive Event
  | filterBlock (block : Block)
  | spendBlock (block : Block)
  | newTransaction (order : List (Σ _ : Bytes, ℕ)) (recPubKey : PublicKey) (amount fee : UInt64)

def after {σ α : Type} : EStateM.Result Failure σ α → Option σ
  | .ok _ s => some s
  | .error (.throw _) s => some s
  | .error (.abort _) _ => none

def step (na : Signer) (w : Wallet) : Event → Option Wallet
  | .filterBlock block => after (filterBlock na.toSodium block w)
  | .spendBlock block => some (spendBlock block w)
  | .newTransaction order recPubKey amount fee =>
    if Lists order w then after (newTransaction na order recPubKey amount fee w) else none

end Runs

end FheBlockchain.Store.Payments
