import FheBlockchain.Core.SigningValid
import FheBlockchain.Library.FiniteMap
import FheBlockchain.Store.Payments
import Mathlib.Algebra.Order.BigOperators.Group.List

namespace FheBlockchain.Store.PaymentFacts

open Core.Transactions Core.Serialization Core.Blocks Core.Amounts Core.SigningFacts
open Core.SigningValid Payments
open Core.Signing hiding M
open Library Library.Execution Library.FiniteMap Library.Transitions

variable {na : Signer} {w w' : Wallet} {mem mem' : Memory} {objs : List InputObject} {a n : ℕ}
variable {publicKey : PublicKey} {secretKey : Vector UInt8 64}
variable {order : List (Σ _ : Bytes, ℕ)} {recPubKey : PublicKey} {amount fee total : UInt64}

section Selection

variable {amounts : List UInt64}

def Covers (amounts : List UInt64) (total : UInt64) (n : ℕ) : Prop :=
  (0 < n ∧ n ≤ amounts.length) ∧ total.toNat ≤ worth (amounts.take n) % 2 ^ 64

instance : Decidable (Covers amounts total n) := inferInstanceAs (Decidable (_ ∧ _))

def Selects (amounts : List UInt64) (total : UInt64) (n : ℕ) : Prop :=
  Covers amounts total n ∧ ∀ m < n, ¬ Covers amounts total m

theorem Covers.selects (h : Covers amounts total n) : ∃ m, Selects amounts total m :=
  ⟨Nat.find ⟨n, h⟩, Nat.find_spec _, fun _ ↦ Nat.find_min _⟩

theorem Selects.unique {m : ℕ} (h : Selects amounts total m) (h' : Selects amounts total n) :
    m = n := by
  rcases Nat.lt_trichotomy m n with hlt | he | hlt
  · exact absurd h.1 (h'.2 m hlt)
  · exact he
  · exact absurd h'.1 (h.2 n hlt)

theorem covers_iff : Covers amounts total n ↔
    (0 < n ∧ n ≤ amounts.length) ∧ total ≤ Transaction.total (amounts.take n) := by
  rw [Covers, UInt64.le_iff_toNat_le, toNat_total]

theorem total_take {k : ℕ} (hk : k < amounts.length) :
    Transaction.total (amounts.take (k + 1)) =
      Transaction.total (amounts.take k) + amounts[k] := by
  rw [List.take_add_one, List.getElem?_eq_getElem hk, Transaction.total, List.foldl_append]
  rfl

theorem collect_run (hreads : Reads mem (order.map Sigma.snd) objs) (r k : ℕ)
    (hr : k + r = objs.length)
    (hk : ∀ m ≤ k, ¬ Covers (objs.map InputObject.amount) total m) :
    ∃ res, collect total ((order.map Sigma.snd).take k)
        (Transaction.total ((objs.map InputObject.amount).take k)) (order.drop k) mem =
      .ok res mem ∧
        ((∃ n, Selects (objs.map InputObject.amount) total n ∧
            res = ((order.map Sigma.snd).take n, true)) ∨
          (∀ n, ¬ Covers (objs.map InputObject.amount) total n) ∧
            res = (order.map Sigma.snd, false)) := by
  have hlen : order.length = objs.length := by simpa using hreads.length_eq
  induction r generalizing k with
  | zero =>
    refine ⟨(order.map Sigma.snd, false), ?_, .inr ⟨fun n h ↦ ?_, rfl⟩⟩
    · rw [List.drop_eq_nil_of_le (by omega), List.take_of_length_le (by simp; omega)]
      rfl
    · have hn : n ≤ objs.length := by simpa using h.1.2
      exact hk n (by omega) h
  | succ r ih =>
    have ho : k < order.length := by omega
    have hobj : k < objs.length := by omega
    have hread : mem[order[k].2]? = some objs[k] := by
      simpa using (List.forall₂_iff_get.mp hreads).2 k (by simpa using ho) hobj
    have hnext : (order.map Sigma.snd).take k ++ [order[k].2] =
        (order.map Sigma.snd).take (k + 1) := by
      rw [List.take_add_one, List.getElem?_eq_getElem (by simpa using ho), List.getElem_map]
      rfl
    have htotal : Transaction.total ((objs.map InputObject.amount).take k) + objs[k].amount =
        Transaction.total ((objs.map InputObject.amount).take (k + 1)) := by
      rw [total_take (by simpa using hobj), List.getElem_map]
    rw [List.drop_eq_getElem_cons ho, collect, run_bind_of_ok (deref_run hread), hnext, htotal]
    have hiff : Covers (objs.map InputObject.amount) total (k + 1) ↔
        total ≤ Transaction.total ((objs.map InputObject.amount).take (k + 1)) := by
      rw [covers_iff]
      exact and_iff_right ⟨k.succ_pos, (List.length_map _).symm ▸ hobj⟩
    split_ifs with hstop
    · refine ⟨_, rfl, .inl ⟨k + 1, ⟨hiff.mpr hstop, fun m hm ↦ hk m (by omega)⟩, rfl⟩⟩
    · refine ih (k + 1) (by omega) fun m hm h ↦ ?_
      rcases Nat.lt_or_eq_of_le hm with hlt | rfl
      · exact hk m (by omega) h
      · exact hstop (hiff.mp h)

theorem collect_outcome (hreads : Reads mem (order.map Sigma.snd) objs) (total : UInt64) :
    (∃ n, Selects (objs.map InputObject.amount) total n ∧
        collect total [] 0 order mem = .ok ((order.map Sigma.snd).take n, true) mem) ∨
      (∀ n, ¬ Covers (objs.map InputObject.amount) total n) ∧
        collect total [] 0 order mem = .ok (order.map Sigma.snd, false) mem := by
  obtain ⟨res, hrun, ⟨n, hsel, rfl⟩ | ⟨hnone, rfl⟩⟩ := @collect_run mem objs order total hreads
    objs.length 0 (Nat.zero_add _) fun m hm h ↦ absurd h.1.1 (by omega)
  · exact .inl ⟨n, hsel, hrun⟩
  · exact .inr ⟨hnone, hrun⟩

end Selection

section Invariant

/-- The wallet has these keys. Each coin is kept under its own key of the map, and
is unsigned as long as no payment has taken it. -/
structure Sound (publicKey : PublicKey) (secretKey : Vector UInt8 64) (w : Wallet) : Prop where
  publicKey : w.publicKey = publicKey
  secretKey : w.secretKey = secretKey
  coins : ∀ k a, w.coins.lookup k = some a → ∃ coin, w.memory[a]? = some coin ∧ coin.key = k ∧
    (Unsigned coin.toTransactionInput ∨ coin.isSigned = true)

theorem Sound.key_unique {k k' : Bytes} (h : Sound publicKey secretKey w) (hk : w.coins.lookup k = some a)
    (hk' : w.coins.lookup k' = some a) : k = k' := by
  obtain ⟨coin, hcoin, hkey, -⟩ := h.coins k a hk
  obtain ⟨coin', hcoin', hkey', -⟩ := h.coins k' a hk'
  rw [hcoin'] at hcoin
  obtain rfl := Option.some.inj hcoin
  exact hkey.symm.trans hkey'

theorem sound_empty (publicKey : PublicKey) (secretKey : Vector UInt8 64) :
    Sound publicKey secretKey (.empty publicKey secretKey) := by
  refine ⟨rfl, rfl, fun k a h ↦ ?_⟩
  simp [Wallet.empty] at h

theorem Sound.keep {obj : InputObject} (h : Sound publicKey secretKey w) (hobj : Unsigned obj.toTransactionInput) :
    Sound publicKey secretKey (w.keep obj) := by
  refine ⟨h.publicKey, h.secretKey, fun k a ha ↦ ?_⟩
  rw [Wallet.keep, lookup_insert_ite] at ha
  split_ifs at ha with hk
  · obtain rfl := Option.some.inj ha
    exact ⟨obj, by simp [Wallet.keep], hk.symm, .inl hobj⟩
  · obtain ⟨coin, hcoin, hrest⟩ := h.coins k a ha
    have hlt := (List.getElem?_eq_some_iff.mp hcoin).1
    exact ⟨coin, (List.getElem?_append_left hlt).trans hcoin, hrest⟩

theorem unsigned_new {txid : Bytes} (vout : UInt64) (h : txid.length = 32) :
    Unsigned (.unsigned txid vout) := ⟨h, rfl, rfl, .inl rfl⟩

theorem post_filterBlock_sound (na : Sodium) (block : Block) (h : Sound publicKey secretKey w) :
    Post (filterBlock na block) w (fun _ ↦ Sound publicKey secretKey)
      fun _ ↦ Sound publicKey secretKey := by
  refine post_forM (fun tx _ w h ↦ post_forM (fun outp _ w h ↦ ?_) h) h
  rw [filterOutput, post_bind_get]
  split_ifs
  · refine post_bind_ofExcept (fun txid hid ↦ post_modify.mpr ?_) fun _ _ ↦ h
    obtain ⟨ser, -, rfl⟩ := txid_serialize hid
    exact h.keep (unsigned_new _ (na.length_hash ser))
  · exact h

theorem Sound.erase (h : Sound publicKey secretKey w) (k : Bytes) :
    Sound publicKey secretKey { w with coins := w.coins.erase k } := by
  refine ⟨h.publicKey, h.secretKey, fun k' a ha ↦ ?_⟩
  dsimp only at ha
  rw [lookup_erase_ite] at ha
  split_ifs at ha
  exact h.coins k' a ha

theorem sound_spendTransaction (h : Sound publicKey secretKey w) (tx : Transaction) :
    Sound publicKey secretKey (spendTransaction tx w) := by
  rw [spendTransaction]
  induction tx.inputs generalizing w with
  | nil => exact h
  | cons inp inputs ih => exact ih (h.erase inp.key)

theorem sound_spendBlock (h : Sound publicKey secretKey w) (block : Block) :
    Sound publicKey secretKey (spendBlock block w) := by
  rw [spendBlock]
  induction block.transactions generalizing w with
  | nil => exact h
  | cons tx txs ih => exact ih (sound_spendTransaction h tx)

end Invariant

section Listing

def coinsOf (w : Wallet) (order : List (Σ _ : Bytes, ℕ)) : List InputObject :=
  (order.map Sigma.snd).filterMap fun a ↦ w.memory[a]?

def amountsOf (w : Wallet) (order : List (Σ _ : Bytes, ℕ)) : List UInt64 :=
  (coinsOf w order).map InputObject.amount

def wealth (w : Wallet) : ℕ :=
  (w.coins.entries.map fun pair ↦
    (w.memory[pair.2]?).elim 0 fun coin ↦ coin.amount.toNat).sum

variable (hsound : Sound publicKey secretKey w) (hlist : Lists order w)
include hlist

theorem lookup_of_listed {pair : Σ _ : Bytes, ℕ} (hpair : pair ∈ order) :
    w.coins.lookup pair.1 = some pair.2 := by
  refine Finmap.lookup_eq_some_iff.mpr ?_
  rw [← show (order : Multiset (Σ _ : Bytes, ℕ)) = w.coins.entries from hlist]
  exact Multiset.mem_coe.mpr hpair

include hsound

theorem coin_of_listed (ha : a ∈ order.map Sigma.snd) :
    ∃ coin, w.memory[a]? = some coin ∧ w.coins.lookup coin.key = some a ∧
      (Unsigned coin.toTransactionInput ∨ coin.isSigned = true) := by
  obtain ⟨pair, hpair, rfl⟩ := List.mem_map.mp ha
  have hlookup := lookup_of_listed hlist hpair
  obtain ⟨coin, hcoin, hkey, hflag⟩ := hsound.coins _ _ hlookup
  exact ⟨coin, hcoin, hkey ▸ hlookup, hflag⟩

theorem nodup_listed : (order.map Sigma.snd).Nodup := by
  have hkeys : order.NodupKeys := by
    have hnd := w.coins.nodupKeys
    rwa [← show (order : Multiset (Σ _ : Bytes, ℕ)) = w.coins.entries from hlist,
      Multiset.coe_nodupKeys] at hnd
  refine List.Nodup.map_on (fun x hx y hy he ↦ ?_) hkeys.nodup
  have hx' := lookup_of_listed hlist hx
  have hy' := lookup_of_listed hlist hy
  exact Sigma.ext (hsound.key_unique (he ▸ hx') hy') (heq_of_eq he)

theorem reads_listed : Reads w.memory (order.map Sigma.snd) (coinsOf w order) := by
  obtain ⟨objs, hreads⟩ := @exists_reads w.memory (order.map Sigma.snd) fun a ha ↦ by
    obtain ⟨coin, hcoin, -⟩ := coin_of_listed hsound hlist ha
    exact ⟨coin, hcoin⟩
  rwa [coinsOf, filterMap_reads hreads]

theorem wealth_listed : wealth w = worth (amountsOf w order) := by
  have hreads := List.forall₂_map_left_iff.mp (reads_listed hsound hlist)
  rw [wealth, ← show (order : Multiset (Σ _ : Bytes, ℕ)) = w.coins.entries from hlist,
    Multiset.map_coe, Multiset.sum_coe, amountsOf, worth, List.map_map]
  congr 1
  rw [← List.forall₂_eq_eq_eq, List.forall₂_map_left_iff, List.forall₂_map_right_iff]
  refine hreads.imp fun pair obj hobj ↦ ?_
  rw [hobj]
  rfl

end Listing

section Outcomes

theorem construct_run {inputs : List ℕ} {selfPubkey : PublicKey}
    (hreads : Reads mem inputs objs)
    (hfunds : amount + fee ≤ Transaction.total (objs.map InputObject.amount)) :
    SharedTransaction.construct inputs selfPubkey recPubKey amount fee mem =
      .ok ⟨inputs, ⟨amount, recPubKey⟩ ::
        if amount + fee < Transaction.total (objs.map InputObject.amount) then
          [⟨Transaction.total (objs.map InputObject.amount) - amount - fee, selfPubkey⟩]
        else []⟩ mem := by
  rw [SharedTransaction.construct, run_bind_of_ok (mapM_deref hreads)]
  dsimp only
  rw [if_neg (UInt64.not_lt.mpr hfunds)]
  split_ifs <;> rfl

def payment (w : Wallet) (order : List (Σ _ : Bytes, ℕ)) (recPubKey : PublicKey)
    (amount fee : UInt64) (n : ℕ) : SharedTransaction :=
  let funds := Transaction.total ((amountsOf w order).take n)
  { inputs := (order.map Sigma.snd).take n
    outputs := ⟨amount, recPubKey⟩ ::
      if amount + fee < funds then [⟨funds - amount - fee, w.publicKey⟩] else [] }

theorem onMemory_of_ok {α : Type} {x : Core.Signing.M α} {r : α} (h : x w.memory = .ok r mem) :
    onMemory x w = .ok r { w with memory := mem } := focus_of_ok h

variable (hsound : Sound publicKey secretKey w) (hlist : Lists order w)
include hsound hlist

theorem newTransaction_refused (na : Signer) (recPubKey : PublicKey)
    (h : ∀ n, ¬ Covers (amountsOf w order) (amount + fee) n) :
    newTransaction na order recPubKey amount fee w =
      .error (runtimeError "Not enough coins to create transaction.") w := by
  rcases collect_outcome (reads_listed hsound hlist) (amount + fee) with
    ⟨n, hsel, -⟩ | ⟨-, hrun⟩
  · exact absurd hsel.1 (h n)
  · rw [newTransaction, run_bind_get, run_bind_of_ok (onMemory_of_ok hrun)]
    rfl

theorem newTransaction_selected (na : Signer) (recPubKey : PublicKey)
    (hsel : Selects (amountsOf w order) (amount + fee) n) :
    newTransaction na order recPubKey amount fee w = (do
      onMemory ((payment w order recPubKey amount fee n).sign na w.publicKey w.secretKey)
      return payment w order recPubKey amount fee n) w := by
  have hreads := reads_listed hsound hlist
  rcases collect_outcome hreads (amount + fee) with ⟨m, hsel', hrun⟩ | ⟨hnone, -⟩
  · obtain rfl := hsel'.unique hsel
    have hfunds := (covers_iff.mp hsel.1).2
    rw [amountsOf, ← List.map_take] at hfunds
    have hmake := @construct_run _ _ recPubKey amount fee _ w.publicKey
      (List.forall₂_take m hreads) hfunds
    rw [List.map_take] at hmake
    rw [newTransaction, run_bind_get, run_bind_of_ok (onMemory_of_ok hrun)]
    exact run_bind_of_ok (onMemory_of_ok hmake)
  · exact absurd hsel.1 (hnone n)

theorem reads_selected : Reads w.memory (payment w order recPubKey amount fee n).inputs
    ((coinsOf w order).take n) := List.forall₂_take n (reads_listed hsound hlist)

theorem newTransaction_signed (na : Signer) (recPubKey : PublicKey)
    (hsel : Selects (amountsOf w order) (amount + fee) n)
    (h : ∃ coin ∈ (coinsOf w order).take n, coin.isSigned = true) :
    newTransaction na order recPubKey amount fee w =
      .error (invalidArgument "Cannot sign already signed inputs.") w := by
  rw [newTransaction_selected hsound hlist na recPubKey hsel]
  refine run_bind_of_error ?_
  rw [onMemory, focus_of_error (sign_signed na w.publicKey w.secretKey
    (reads_selected hsound hlist) h)]

theorem unsigned_selected (h : ∀ coin ∈ (coinsOf w order).take n, coin.isSigned = false) :
    ∀ a ∈ (order.map Sigma.snd).take n, ∃ coin, w.memory[a]? = some coin ∧
      Unsigned coin.toTransactionInput := by
  intro a ha
  obtain ⟨coin, hcoin, hread⟩ := Results.exists_of_forall₂
    (List.forall₂_take n (reads_listed hsound hlist)) ha
  obtain ⟨coin', hcoin', -, hflag⟩ := coin_of_listed hsound hlist (List.mem_of_mem_take ha)
  rw [hread] at hcoin'
  obtain rfl := Option.some.inj hcoin'
  refine ⟨coin, hread, hflag.resolve_right fun hsigned ↦ ?_⟩
  exact absurd ((h coin hcoin).symm.trans hsigned) Bool.false_ne_true

theorem newTransaction_paid (na : Signer) (recPubKey : PublicKey)
    (hsel : Selects (amountsOf w order) (amount + fee) n)
    (h : ∀ coin ∈ (coinsOf w order).take n, coin.isSigned = false) :
    ∃ mem', newTransaction na order recPubKey amount fee w =
        .ok (payment w order recPubKey amount fee n) { w with memory := mem' } ∧
      Frame ((order.map Sigma.snd).take n) w.memory mem' ∧
      SignedBy na w.publicKey w.secretKey (payment w order recPubKey amount fee n)
        (origin w.memory) mem' := by
  obtain ⟨mem', hsign, hframe, hsigned⟩ := @sign_unsigned w.memory
    (payment w order recPubKey amount fee n) na w.publicKey w.secretKey
    ((nodup_listed hsound hlist).sublist (List.take_sublist n _))
    (unsigned_selected hsound hlist h)
  refine ⟨mem', ?_, hframe, hsigned⟩
  rw [newTransaction_selected hsound hlist na recPubKey hsel, run_bind_of_ok (onMemory_of_ok hsign)]
  rfl

theorem coin_signed (hsigned : SignedBy na w.publicKey w.secretKey
      (payment w order recPubKey amount fee n) (origin w.memory) mem')
    (ha : a ∈ (order.map Sigma.snd).take n) :
    ∃ coin, mem'[a]? = some coin ∧ w.coins.lookup coin.key = some a ∧ coin.isSigned = true := by
  obtain ⟨coin, hcoin, he⟩ := hsigned a ha
  obtain ⟨coin', hcoin', hlookup, -⟩ := coin_of_listed hsound hlist (List.mem_of_mem_take ha)
  have horigin : origin w.memory a = coin'.toTransactionInput := by
    rw [origin, hcoin']
    rfl
  rw [horigin] at he
  refine ⟨coin, hcoin, ?_, ?_⟩
  · rw [he]
    exact hlookup
  · rw [he]
    rfl

/-- A call throws and changes nothing, or it signs the coins of its payment. -/
theorem newTransaction_outcome (na : Signer) (recPubKey : PublicKey) (amount fee : UInt64) :
    (∃ e, newTransaction na order recPubKey amount fee w = .error (.throw e) w) ∨
      ∃ n mem', newTransaction na order recPubKey amount fee w =
          .ok (payment w order recPubKey amount fee n) { w with memory := mem' } ∧
        Frame ((order.map Sigma.snd).take n) w.memory mem' ∧
        SignedBy na w.publicKey w.secretKey (payment w order recPubKey amount fee n)
          (origin w.memory) mem' := by
  by_cases hcovers : ∃ n, Covers (amountsOf w order) (amount + fee) n
  · obtain ⟨n, hsel⟩ := hcovers.elim fun _ h ↦ h.selects
    by_cases htaken : ∃ coin ∈ (coinsOf w order).take n, coin.isSigned = true
    · exact .inl ⟨_, newTransaction_signed hsound hlist na recPubKey hsel htaken⟩
    · exact .inr ⟨n, newTransaction_paid hsound hlist na recPubKey hsel fun coin hcoin ↦
        Bool.eq_false_iff.mpr fun h ↦ htaken ⟨coin, hcoin, h⟩⟩
  · exact .inl ⟨_, newTransaction_refused hsound hlist na recPubKey (not_exists.mp hcovers)⟩

theorem post_newTransaction_sound :
    Post (newTransaction na order recPubKey amount fee) w (fun _ ↦ Sound publicKey secretKey)
      fun _ ↦ Sound publicKey secretKey := by
  rw [Post]
  rcases newTransaction_outcome hsound hlist na recPubKey amount fee with
    ⟨e, hrun⟩ | ⟨n, mem', hrun, hframe, hsigned⟩
  · rw [hrun]
    exact hsound
  · rw [hrun]
    refine ⟨hsound.publicKey, hsound.secretKey, fun k a hk ↦ ?_⟩
    by_cases ha : a ∈ (order.map Sigma.snd).take n
    · obtain ⟨coin, hcoin, hlookup, hflag⟩ := coin_signed hsound hlist hsigned ha
      exact ⟨coin, hcoin, hsound.key_unique hlookup hk, .inr hflag⟩
    · obtain ⟨coin, hcoin, hrest⟩ := hsound.coins k a hk
      exact ⟨coin, (hframe.outside a ha).trans hcoin, hrest⟩

end Outcomes

section Law

/-- A balanced and valid payment out of different coins of the wallet. -/
structure Pays (na : Signer) (w : Wallet) (recPubKey : PublicKey) (amount fee : UInt64)
    (tx : SharedTransaction) (mem : Memory) : Prop where
  nodup : tx.inputs.Nodup
  coins : ∀ a ∈ tx.inputs, ∃ coin, mem[a]? = some coin ∧ w.coins.lookup coin.key = some a
  outputs : ∃ change : UInt64, tx.outputs = ⟨amount, recPubKey⟩ ::
      (if change = 0 then [] else [⟨change, w.publicKey⟩]) ∧
    worth (amountsAt mem tx) = amount.toNat + change.toNat + fee.toNat
  valid : ∃ mem', tx.validateTransaction na.toSodium
    (List.replicate tx.inputs.length w.publicKey) mem = .ok true mem'

/-- The selected coins have wrapped around as often as `amount + fee` has, and if
they have, they still show the fee. -/
def Even (w : Wallet) (order : List (Σ _ : Bytes, ℕ)) (amount fee : UInt64) (n : ℕ) : Prop :=
  worth ((amountsOf w order).take n) / 2 ^ 64 = (amount.toNat + fee.toNat) / 2 ^ 64 ∧
    (2 ^ 64 ≤ amount.toNat + fee.toNat →
      fee.toNat ≤ worth ((amountsOf w order).take n) % 2 ^ 64)

def changeOf (w : Wallet) (order : List (Σ _ : Bytes, ℕ)) (amount fee : UInt64) (n : ℕ) : UInt64 :=
  Transaction.total ((amountsOf w order).take n) - amount - fee

theorem toNat_changeOf (h : Covers (amountsOf w order) (amount + fee) n) :
    (changeOf w order amount fee n).toNat =
      worth ((amountsOf w order).take n) % 2 ^ 64 - (amount.toNat + fee.toNat) % 2 ^ 64 := by
  have hle := h.2
  rw [UInt64.toNat_add] at hle
  rw [changeOf, UInt64.toNat_sub, UInt64.toNat_sub, toNat_total]
  have ha := amount.toNat_lt
  have hf := fee.toNat_lt
  omega

theorem payment_outputs (h : Covers (amountsOf w order) (amount + fee) n) :
    (payment w order recPubKey amount fee n).outputs = ⟨amount, recPubKey⟩ ::
      (if changeOf w order amount fee n = 0 then []
        else [⟨changeOf w order amount fee n, w.publicKey⟩]) := by
  have hiff : amount + fee < Transaction.total ((amountsOf w order).take n) ↔
      ¬ changeOf w order amount fee n = 0 := by
    rw [← UInt64.toNat_inj, toNat_changeOf h, UInt64.lt_iff_toNat_lt, toNat_total,
      UInt64.toNat_add, UInt64.toNat_zero]
    omega
  by_cases hzero : changeOf w order amount fee n = 0
  · rw [if_pos hzero, payment]
    simp only [if_neg fun hlt ↦ hiff.mp hlt hzero]
  · rw [if_neg hzero, payment]
    simp only [if_pos (hiff.mpr hzero)]
    rfl

theorem toNat_total_outputs (recPubKey : PublicKey)
    (h : Covers (amountsOf w order) (amount + fee) n) :
    (Transaction.total ((payment w order recPubKey amount fee n).outputs.map
      TransactionOutput.amount)).toNat =
        (amount.toNat + (changeOf w order amount fee n).toNat) % 2 ^ 64 := by
  rw [toNat_total, payment_outputs h]
  split_ifs with hzero
  · simp [worth, hzero]
  · simp [worth]

theorem amountsAt_payment (hsound : Sound publicKey secretKey w) (hlist : Lists order w)
    (recPubKey : PublicKey) (amount fee : UInt64)
    (hframe : Frame ((order.map Sigma.snd).take n) w.memory mem') :
    amountsAt mem' (payment w order recPubKey amount fee n) = (amountsOf w order).take n := by
  rw [amountsAt_frame hframe, amountsAt_reads (reads_selected hsound hlist), amountsOf,
    List.map_take]

theorem pays_iff (hsound : Sound publicKey secretKey w) (hlist : Lists order w)
    (hpair : ∀ msg, na.signVerifyDetached (na.signDetached msg w.secretKey).toList msg
      w.publicKey = true)
    (hsel : Selects (amountsOf w order) (amount + fee) n)
    (hfree : ∀ coin ∈ (coinsOf w order).take n, coin.isSigned = false)
    (hframe : Frame ((order.map Sigma.snd).take n) w.memory mem')
    (hsigned : SignedBy na w.publicKey w.secretKey (payment w order recPubKey amount fee n)
      (origin w.memory) mem') :
    Pays na w recPubKey amount fee (payment w order recPubKey amount fee n) mem' ↔
      Even w order amount fee n := by
  have hamounts := amountsAt_payment hsound hlist recPubKey amount fee hframe
  have hchange := toNat_changeOf hsel.1
  have houts := toNat_total_outputs recPubKey hsel.1
  have ha := amount.toNat_lt
  have hf := fee.toNat_lt
  have hcovers := hsel.1.2
  rw [UInt64.toNat_add] at hcovers
  constructor
  · intro h
    obtain ⟨change, heq, hsum⟩ := h.outputs
    obtain ⟨mem'', hvalid⟩ := h.valid
    have hfunds : Transaction.total ((payment w order recPubKey amount fee n).outputs.map
        TransactionOutput.amount) ≤ Transaction.total ((amountsOf w order).take n) := by
      obtain ⟨objs, hreads⟩ := exists_reads fun a ha ↦ by
        obtain ⟨coin, hcoin, -⟩ := hsigned a ha
        exact ⟨coin, hcoin⟩
      rw [← hamounts, amountsAt_reads hreads]
      exact funds_of_validate hreads hvalid
    have hsame : change = changeOf w order amount fee n := by
      rw [payment_outputs hsel.1] at heq
      split_ifs at heq with hzero hzero'
      · rw [hzero, hzero']
      · simp at heq
      · simp at heq
      · simpa using heq.symm
    rw [hamounts, hsame] at hsum
    rw [UInt64.le_iff_toNat_le, houts, toNat_total] at hfunds
    constructor <;> omega
  · intro h
    obtain ⟨hwraps, hshow⟩ := h
    refine ⟨(nodup_listed hsound hlist).sublist (List.take_sublist n _), fun a ha ↦ ?_,
      ⟨_, payment_outputs hsel.1, ?_⟩, ?_⟩
    · obtain ⟨coin, hcoin, hlookup, -⟩ := coin_signed hsound hlist hsigned ha
      exact ⟨coin, hcoin, hlookup⟩
    · rw [hamounts]
      omega
    · refine validate_signedBy hpair ((nodup_listed hsound hlist).sublist (List.take_sublist n _))
        (txid_origin (unsigned_selected hsound hlist hfree)) hsigned ?_
      rw [hamounts, UInt64.le_iff_toNat_le, houts, toNat_total]
      omega

def RightOrRefused (na : Signer) (w : Wallet) (order : List (Σ _ : Bytes, ℕ))
    (recPubKey : PublicKey) (amount fee : UInt64) : Prop :=
  if amount.toNat + fee.toNat ≤ wealth w then
    ∃ tx w', newTransaction na order recPubKey amount fee w = .ok tx w' ∧
      Pays na w recPubKey amount fee tx w'.memory
  else ∃ what w', newTransaction na order recPubKey amount fee w = .error (runtimeError what) w'

/-- Coins reach the total in 64 bits if the wallet is worth it. The first ones
that do have wrapped around evenly, and no payment has taken them before. -/
structure Payable (w : Wallet) (order : List (Σ _ : Bytes, ℕ)) (amount fee : UInt64) : Prop where
  enough : amount.toNat + fee.toNat ≤ wealth w → ∃ n, Covers (amountsOf w order) (amount + fee) n
  selected : ∀ n, Selects (amountsOf w order) (amount + fee) n →
    Even w order amount fee n ∧ ∀ coin ∈ (coinsOf w order).take n, coin.isSigned = false

theorem payable_iff (hsel : Selects (amountsOf w order) (amount + fee) n) :
    Payable w order amount fee ↔
      Even w order amount fee n ∧ ∀ coin ∈ (coinsOf w order).take n, coin.isSigned = false := by
  constructor
  · exact fun h ↦ h.selected n hsel
  · refine fun h ↦ ⟨fun _ ↦ ⟨n, hsel.1⟩, fun m hm ↦ ?_⟩
    obtain rfl := hm.unique hsel
    exact h

theorem worth_take_le (amounts : List UInt64) (n : ℕ) : worth (amounts.take n) ≤ worth amounts := by
  rw [worth, worth, List.map_take]
  exact (List.take_sublist n _).sum_le_sum fun _ _ ↦ Nat.zero_le _

theorem Even.le_wealth (h : Even w order amount fee n) (hsound : Sound publicKey secretKey w)
    (hlist : Lists order w) (hsel : Selects (amountsOf w order) (amount + fee) n) :
    amount.toNat + fee.toNat ≤ wealth w := by
  have hcovers := hsel.1.2
  have hle := worth_take_le (amountsOf w order) n
  have hwraps := h.1
  rw [UInt64.toNat_add] at hcovers
  rw [wealth_listed hsound hlist]
  omega

theorem payable_of_range (hsound : Sound publicKey secretKey w) (hlist : Lists order w)
    (hwealth : wealth w < 2 ^ 64) (hsum : amount.toNat + fee.toNat < 2 ^ 64)
    (hany : order ≠ [] ∨ 0 < amount.toNat + fee.toNat)
    (hfree : ∀ coin ∈ coinsOf w order, coin.isSigned = false) : Payable w order amount fee := by
  have hworth := wealth_listed hsound hlist
  refine ⟨fun hle ↦ ⟨(amountsOf w order).length, ⟨?_, le_rfl⟩, ?_⟩, fun n _ ↦ ⟨⟨?_, ?_⟩, ?_⟩⟩
  · have hlen : (amountsOf w order).length = order.length := by
      rw [amountsOf, List.length_map, ← (reads_listed hsound hlist).length_eq, List.length_map]
    rcases hany with hne | hpos
    · exact hlen ▸ List.length_pos_iff.mpr hne
    · refine List.length_pos_iff.mpr fun hnil ↦ ?_
      rw [hworth, hnil] at hle
      exact absurd hle (Nat.not_le.mpr hpos)
  · rw [List.take_length, UInt64.toNat_add, ← hworth]
    omega
  · have hle := worth_take_le (amountsOf w order) n
    omega
  · intro hge
    omega
  · exact fun coin hcoin ↦ hfree coin (List.mem_of_mem_take hcoin)

theorem rightOrRefused_iff (hsound : Sound publicKey secretKey w) (hlist : Lists order w)
    (hpair : ∀ msg, na.signVerifyDetached (na.signDetached msg secretKey).toList msg publicKey =
      true) (recPubKey : PublicKey) (amount fee : UInt64) :
    RightOrRefused na w order recPubKey amount fee ↔ Payable w order amount fee := by
  rw [← hsound.publicKey, ← hsound.secretKey] at hpair
  by_cases hcovers : ∃ n, Covers (amountsOf w order) (amount + fee) n
  · obtain ⟨n, hsel⟩ := hcovers.elim fun _ h ↦ h.selects
    rw [payable_iff hsel]
    by_cases htaken : ∃ coin ∈ (coinsOf w order).take n, coin.isSigned = true
    · have hrun := newTransaction_signed hsound hlist na recPubKey hsel htaken
      obtain ⟨coin, hcoin, hflag⟩ := htaken
      refine iff_of_false (fun h ↦ ?_) fun h ↦ absurd (h.2 coin hcoin) (by simp [hflag])
      rw [RightOrRefused, hrun] at h
      split_ifs at h
      · obtain ⟨tx, w', he, -⟩ := h
        cases he
      · obtain ⟨what, w', he⟩ := h
        cases he
    · have hfree : ∀ coin ∈ (coinsOf w order).take n, coin.isSigned = false :=
        fun coin hcoin ↦ Bool.eq_false_iff.mpr fun h ↦ htaken ⟨coin, hcoin, h⟩
      obtain ⟨mem', hrun, hframe, hsigned⟩ := newTransaction_paid hsound hlist na
        recPubKey hsel hfree
      have hpays := pays_iff hsound hlist hpair hsel hfree hframe hsigned
      rw [RightOrRefused, hrun]
      constructor
      · intro h
        split_ifs at h
        · obtain ⟨tx, w', he, htx⟩ := h
          cases he
          exact ⟨hpays.mp htx, hfree⟩
        · obtain ⟨what, w', he⟩ := h
          cases he
      · intro h
        rw [if_pos (h.1.le_wealth hsound hlist hsel)]
        exact ⟨_, _, rfl, hpays.mpr h.1⟩
  · have hrun := newTransaction_refused hsound hlist na recPubKey
      (not_exists.mp hcovers)
    rw [RightOrRefused, hrun]
    constructor
    · intro h
      refine ⟨fun hworth ↦ ?_, fun n hsel ↦ absurd ⟨n, hsel.1⟩ hcovers⟩
      rw [if_pos hworth] at h
      obtain ⟨tx, w', he, -⟩ := h
      cases he
    · intro h
      rw [if_neg fun hworth ↦ hcovers (h.enough hworth)]
      exact ⟨_, _, rfl⟩

end Law

section Reached

theorem ends_of_after {α : Type} {x : M α} (h : after (x w) = some w') : Ends x w w' := by
  rw [Ends]
  cases hrun : x w with
  | ok a t =>
    rw [hrun] at h
    cases h
    exact .inl ⟨a, rfl⟩
  | error e t =>
    rw [hrun] at h
    cases e with
    | throw e =>
      cases h
      exact .inr ⟨e, rfl⟩
    | abort u => cases h

theorem sound_step {event : Event} (h : Sound publicKey secretKey w)
    (hstep : step na w event = some w') : Sound publicKey secretKey w' := by
  cases event with
  | filterBlock block => exact (ends_of_after hstep).of_post (post_filterBlock_sound na.toSodium block h)
  | spendBlock block =>
    cases hstep
    exact sound_spendBlock h block
  | newTransaction order recPubKey amount fee =>
    rw [step] at hstep
    split_ifs at hstep with hlist
    exact (ends_of_after hstep).of_post (post_newTransaction_sound h hlist)

/-- In each state that calls lead to, payments that meet the condition, and only
these, are right or refused. -/
theorem payments_iff (na : Signer) (publicKey : PublicKey) (secretKey : Vector UInt8 64)
    (hpair : ∀ msg, na.signVerifyDetached (na.signDetached msg secretKey).toList msg publicKey =
      true)
    (w : Wallet) (hrun : Run (step na) (fun _ _ ↦ True) (.empty publicKey secretKey) w)
    (order : List (Σ _ : Bytes, ℕ)) (hlist : Lists order w) (recPubKey : PublicKey)
    (amount fee : UInt64) :
    RightOrRefused na w order recPubKey amount fee ↔ Payable w order amount fee := by
  have hsound : Sound publicKey secretKey w :=
    hrun.invariant (sound_empty publicKey secretKey) fun _ _ _ h _ ↦ sound_step h
  exact rightOrRefused_iff hsound hlist hpair recPubKey amount fee

def receivedTx : Transaction where
  inputs := [{ TransactionInput.unsigned (zeros 32) 0 with isSigned := true, sig := zeros 64 }]
  outputs := [⟨10, Vector.replicate 32 0⟩, ⟨20, Vector.replicate 32 0⟩]

def receivedBlock : Block where
  header := ⟨none, [], [], 0, 0, []⟩
  transactions := [receivedTx]

def receivedKey (vout : UInt64) : Bytes :=
  txidVoutPairToKey ((receivedTx.txid sampleSodium).toOption.getD []) vout

def received : Wallet :=
  let coin (vout amount : UInt64) : InputObject :=
    { TransactionInput.unsigned ((receivedTx.txid sampleSodium).toOption.getD []) vout with
      amount := amount }
  ((Wallet.empty (Vector.replicate 32 0) (Vector.replicate 64 0)).keep (coin 0 10)).keep
    (coin 1 20)

def receivedOrder : List (Σ _ : Bytes, ℕ) := [⟨receivedKey 1, 1⟩, ⟨receivedKey 0, 0⟩]

theorem received_run : Run (step sampleSigner) (fun _ _ ↦ True)
    (.empty (Vector.replicate 32 0) (Vector.replicate 64 0)) received := by
  have htake : takeAll (step sampleSigner) (fun _ _ ↦ True) [.filterBlock receivedBlock]
      (.empty (Vector.replicate 32 0) (Vector.replicate 64 0)) = some received := by
    decide +kernel
  exact run_of_takeAll htake

theorem received_payment : RightOrRefused sampleSigner received receivedOrder
    (Vector.replicate 32 1) 24 1 := by
  have hlist : Lists receivedOrder received := by decide +kernel
  have hsound : Sound (Vector.replicate 32 0) (Vector.replicate 64 0) received :=
    ((sound_empty _ _).keep (unsigned_new 0 (by decide +kernel))).keep
      (unsigned_new 1 (by decide +kernel))
  refine (payments_iff sampleSigner _ _ (fun _ ↦ rfl) received received_run _ hlist _ _ _).mpr ?_
  exact payable_of_range hsound hlist (by decide +kernel) (by decide) (.inr (by decide))
    (by decide +kernel)

/-- The second of two payments out of one coin is refused for the wrong reason,
although the coins are worth it. -/
theorem repeated_payment_throws : ¬ ∀ (na : Signer) (publicKey : PublicKey)
    (secretKey : Vector UInt8 64), (∀ msg,
      na.signVerifyDetached (na.signDetached msg secretKey).toList msg publicKey = true) →
    ∀ w, Run (step na) (fun _ _ ↦ True) (.empty publicKey secretKey) w →
      ∀ order, Lists order w → ∀ recPubKey amount fee,
        RightOrRefused na w order recPubKey amount fee := by
  intro h
  let other : PublicKey := Vector.replicate 32 1
  have hreached : ∃ w, Run (step sampleSigner) (fun _ _ ↦ True)
      (.empty (Vector.replicate 32 0) (Vector.replicate 64 0)) w ∧ Lists receivedOrder w ∧
      (3 : UInt64).toNat + (1 : UInt64).toNat ≤ wealth w ∧
      fails (newTransaction sampleSigner receivedOrder other 3 1) w
        (.throw (.invalidArgument "Cannot sign already signed inputs.")) = true :=
    reached_of_takeAll [.filterBlock receivedBlock, .newTransaction receivedOrder other 3 1] _
      (by decide +kernel)
  obtain ⟨w, hrun, hlist, hworth, hthrown⟩ := hreached
  have hlaw := h sampleSigner _ _ (fun _ ↦ rfl) w hrun _ hlist other 3 1
  rw [RightOrRefused, if_pos hworth] at hlaw
  obtain ⟨tx, w', hok, -⟩ := hlaw
  obtain ⟨t, herr⟩ := fails_iff.mp hthrown
  cases hok.symm.trans herr

end Reached

end FheBlockchain.Store.PaymentFacts
