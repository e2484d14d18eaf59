import FheBlockchain.Store.PaymentFacts

namespace FheBlockchain.Store.PaymentViews

open Core.Transactions Core.Serialization Core.Blocks Core.SigningFacts Core.SigningValid
open Payments PaymentFacts
open Core.Signing hiding M
open Library.Execution Library.FiniteMap Library.Transitions

variable {na : Signer} {w w' : Wallet} {v v' : Coins.Wallet} {mem' : Memory}
variable {publicKey : PublicKey} {secretKey : Vector UInt8 64}

/-- A coin by value. Whether it has been signed does not show. -/
def plainCoin (coin : InputObject) : Coins.Coin where
  input := .unsigned coin.txid coin.vout
  amount := coin.amount

/-- What lies in memory under the keys of the map is what the other wallet holds. -/
structure Shows (w : Wallet) (v : Coins.Wallet) : Prop where
  publicKey : v.publicKey = w.publicKey
  coins : ∀ k, v.coins.lookup k =
    ((w.coins.lookup k).bind fun a ↦ w.memory[a]?).map plainCoin

section Calls

theorem Shows.keep (h : Shows w v) (hsound : Sound publicKey secretKey w) (obj : InputObject) :
    Shows (w.keep obj) { v with coins := v.coins.insert obj.key (plainCoin obj) } := by
  refine ⟨h.publicKey, fun k ↦ ?_⟩
  dsimp only [Wallet.keep]
  rw [lookup_insert_ite, lookup_insert_ite, h.coins]
  split_ifs
  · simp
  · cases hk : w.coins.lookup k with
    | none => rfl
    | some a =>
      obtain ⟨coin, hcoin, -⟩ := hsound.coins k a hk
      rw [Option.bind_some, Option.bind_some,
        List.getElem?_append_left (List.getElem?_eq_some_iff.mp hcoin).1]

theorem filterBlock_alike (na : Sodium) (block : Block) (hsound : Sound publicKey secretKey w)
    (h : Shows w v) :
    Alike (fun w v ↦ Sound publicKey secretKey w ∧ Shows w v) (filterBlock na block w)
      (Coins.filterBlock na block v) := by
  refine alike_forM (fun tx w v h ↦ alike_forM (fun outp w v h ↦ ?_) h) ⟨hsound, h⟩
  obtain ⟨hsound, hshows⟩ := h
  rw [filterOutput, Coins.filterOutput, run_bind_get, run_bind_get, hshows.publicKey]
  split_ifs
  · cases hid : tx.txid na with
    | ok txid =>
      obtain ⟨ser, -, rfl⟩ := txid_serialize hid
      exact .ok () ⟨hsound.keep (unsigned_new _ (na.length_hash ser)), hshows.keep hsound _⟩
    | error e => exact .error e ⟨hsound, hshows⟩
  · exact .ok () ⟨hsound, hshows⟩

theorem Shows.erase (h : Shows w v) (k : Bytes) :
    Shows { w with coins := w.coins.erase k } { v with coins := v.coins.erase k } := by
  refine ⟨h.publicKey, fun k' ↦ ?_⟩
  dsimp only
  rw [lookup_erase_ite, lookup_erase_ite, h.coins]
  split_ifs <;> rfl

theorem shows_spendTransaction (h : Shows w v) (tx : Transaction) :
    Shows (spendTransaction tx w) (Coins.spendTransaction tx v) := by
  rw [spendTransaction, Coins.spendTransaction]
  induction tx.inputs generalizing w v with
  | nil => exact h
  | cons inp inputs ih => exact ih (h.erase inp.key)

theorem shows_spendBlock (h : Shows w v) (block : Block) :
    Shows (spendBlock block w) (Coins.spendBlock block v) := by
  rw [spendBlock, Coins.spendBlock]
  induction block.transactions generalizing w v with
  | nil => exact h
  | cons tx txs ih => exact ih (shows_spendTransaction h tx)

variable {order : List (Σ _ : Bytes, ℕ)} {recPubKey : PublicKey} {amount fee : UInt64}

theorem plainCoin_signed {tx : SharedTransaction} (hframe : Frame tx.inputs w.memory mem')
    (hsigned : SignedBy na publicKey secretKey tx (origin w.memory) mem') {a : ℕ} {coin : InputObject}
    (hcoin : w.memory[a]? = some coin) : (mem'[a]?).map plainCoin = some (plainCoin coin) := by
  by_cases ha : a ∈ tx.inputs
  · obtain ⟨obj, hobj, he⟩ := hsigned a ha
    have horigin : origin w.memory a = coin.toTransactionInput := by
      rw [origin, hcoin]
      rfl
    have hamount : obj.amount = coin.amount := by
      have hat := congrArg (·[a]?) hframe.amounts
      simpa [List.getElem?_map, hobj, hcoin] using hat
    rw [hobj, Option.map_some, plainCoin, he, horigin, hamount]
    rfl
  · rw [hframe.outside a ha, hcoin]
    rfl

theorem post_newTransaction_shows (hsound : Sound publicKey secretKey w) (hlist : Lists order w)
    (h : Shows w v) :
    Post (newTransaction na order recPubKey amount fee) w (fun _ w' ↦ Shows w' v)
      fun _ w' ↦ Shows w' v := by
  rw [Post]
  rcases newTransaction_outcome hsound hlist na recPubKey amount fee with
    ⟨e, hrun⟩ | ⟨n, mem', hrun, hframe, hsigned⟩
  · rw [hrun]
    exact h
  · rw [hrun]
    refine ⟨h.publicKey, fun k ↦ ?_⟩
    rw [h.coins]
    cases hk : w.coins.lookup k with
    | none => rfl
    | some a =>
      obtain ⟨coin, hcoin, -⟩ := hsound.coins k a hk
      rw [Option.bind_some, Option.bind_some, hcoin, plainCoin_signed hframe hsigned hcoin]
      rfl

end Calls

section Runs

def plainStep (na : Sodium) (v : Coins.Wallet) : Event → Option Coins.Wallet
  | .filterBlock block => after (Coins.filterBlock na block v)
  | .spendBlock block => some (Coins.spendBlock block v)
  | .newTransaction _ _ _ _ => some v

theorem follows_step {event : Event} (hsound : Sound publicKey secretKey w) (h : Shows w v)
    (hstep : step na w event = some w') :
    ∃ v', plainStep na.toSodium v event = some v' ∧ Shows w' v' := by
  cases event with
  | filterBlock block =>
    have halike := filterBlock_alike na.toSodium block hsound h
    rw [step] at hstep
    rw [plainStep]
    generalize filterBlock na.toSodium block w = r at halike hstep
    generalize Coins.filterBlock na.toSodium block v = r' at halike
    cases halike with
    | ok a hR =>
      cases hstep
      exact ⟨_, rfl, hR.2⟩
    | error e hR =>
      cases e with
      | throw e =>
        cases hstep
        exact ⟨_, rfl, hR.2⟩
      | abort u => cases hstep
  | spendBlock block =>
    cases hstep
    exact ⟨_, rfl, shows_spendBlock h block⟩
  | newTransaction order recPubKey amount fee =>
    rw [step] at hstep
    split_ifs at hstep with hlist
    exact ⟨v, rfl, (ends_of_after hstep).of_post (post_newTransaction_shows hsound hlist h)⟩

/-- Every wallet that calls lead to shows the wallet that the same blocks lead to
when coins are kept by value. -/
theorem reached_shows (hrun : Run (step na) (fun _ _ ↦ True) (.empty publicKey secretKey) w) :
    ∃ v, Run (plainStep na.toSodium) (fun _ _ ↦ True) ⟨publicKey, ∅⟩ v ∧ Shows w v := by
  have hstart : Sound publicKey secretKey (.empty publicKey secretKey) ∧
      Shows (.empty publicKey secretKey) ⟨publicKey, ∅⟩ :=
    ⟨sound_empty publicKey secretKey, rfl, fun _ ↦ rfl⟩
  obtain ⟨v, hv, -, hshows⟩ := hrun.follow (R := fun w v ↦ Sound publicKey secretKey w ∧ Shows w v)
    hstart fun w v event w' h hstep ↦ by
      obtain ⟨v', hv', hshows⟩ := follows_step h.1 h.2 hstep
      exact ⟨v', hv', sound_step h.1 hstep, hshows⟩
  exact ⟨v, hv, hshows⟩

end Runs

end FheBlockchain.Store.PaymentViews
