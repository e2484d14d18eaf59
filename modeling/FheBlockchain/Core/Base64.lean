import FheBlockchain.Core.Transactions
import FheBlockchain.Library.BitGroups

namespace FheBlockchain.Core.Base64

open Transactions Library.BitGroups

def chars : Bytes :=
  ("ABCDEFGHIJKLMNOPQRSTUVWXYZ" ++ "abcdefghijklmnopqrstuvwxyz" ++ "0123456789+/").toList.map
    fun c ↦ UInt8.ofNat c.toNat

def isAlnum (c : UInt8) : Bool :=
  48 ≤ c && c ≤ 57 || 65 ≤ c && c ≤ 90 || 97 ≤ c && c ≤ 122

def isBase64 (c : UInt8) : Bool := isAlnum c || c == 43 || c == 47

def filler : UInt8 := 61

def charAt (digit : UInt8) : UInt8 := chars.getD digit.toNat 0

/-- `chars.find`, cast to `unsigned char`; `npos` becomes 255. -/
def find (c : UInt8) : UInt8 :=
  match chars.idxOf? c with
  | some i => UInt8.ofNat i
  | none => 255

def charArray4 (a b c : UInt8) : Bytes :=
  [(a &&& 0xfc) >>> 2, ((a &&& 0x03) <<< 4) + ((b &&& 0xf0) >>> 4),
    ((b &&& 0x0f) <<< 2) + ((c &&& 0xc0) >>> 6), c &&& 0x3f]

def charArray3 (a b c d : UInt8) : Bytes :=
  [(a <<< 2) + ((b &&& 0x30) >>> 4), ((b &&& 0xf) <<< 4) + ((c &&& 0x3c) >>> 2),
    ((c &&& 0x3) <<< 6) + d]

/-- The loop of `encode`; `array` is what `char_array_3` holds so far. -/
def encodeLoop : Bytes → Bytes → Bytes
  | [a, b], c :: bytes => (charArray4 a b c).map charAt ++ encodeLoop [] bytes
  | array, c :: bytes => encodeLoop (array ++ [c]) bytes
  | [], [] => []
  | array, [] =>
    ((charArray4 (array.getD 0 0) (array.getD 1 0) (array.getD 2 0)).take
      (array.length + 1)).map charAt ++ List.replicate (3 - array.length) filler

def encode (bytes : Bytes) : Bytes := encodeLoop [] bytes

def decodeTail (array : Bytes) : Bytes :=
  (charArray3 (find (array.getD 0 0)) (find (array.getD 1 0)) (find (array.getD 2 0))
    (find (array.getD 3 0))).take (array.length - 1)

/-- The loop of `decode`; `array` is what `char_array_4` holds so far. -/
def decodeLoop : Bytes → Bytes → Bytes
  | array, [] => decodeTail array
  | array, ch :: text =>
    if ch != filler && isBase64 ch then
      match array with
      | [a, b, c] => charArray3 (find a) (find b) (find c) (find ch) ++ decodeLoop [] text
      | array => decodeLoop (array ++ [ch]) text
    else decodeTail array

def decode (text : Bytes) : Bytes := decodeLoop [] text

def octet (b : UInt8) : List Bool := bits 8 b.toNat

def sextet (digit : UInt8) : List Bool := bits 6 digit.toNat

theorem octet_length (bytes : Bytes) : (bytes.flatMap octet).length = 8 * bytes.length :=
  length_groups bytes

theorem sextet_length (ds : Bytes) : (ds.flatMap sextet).length = 6 * ds.length :=
  length_groups ds

section Digits

theorem exists_nat {a : UInt8} {n : ℕ} (h : a.toNat < n) : ∃ m < n, a = UInt8.ofNat m :=
  ⟨a.toNat, h, UInt8.ofNat_toNat.symm⟩

theorem find_lt {c : UInt8} (h : isBase64 c = true) : (find c).toNat < 64 := by
  obtain ⟨m, hm, rfl⟩ := exists_nat c.toNat_lt
  revert m
  decide +kernel

theorem charAt_digit {digit : UInt8} (h : digit.toNat < 64) : find (charAt digit) = digit ∧
    (charAt digit != filler && isBase64 (charAt digit)) = true := by
  obtain ⟨m, hm, rfl⟩ := exists_nat h
  clear h
  revert m
  decide +kernel

theorem toNat_mask (a mask : UInt8) (w : ℕ) (hmask : mask.toNat = 2 ^ w - 1) :
    (a &&& mask).toNat = a.toNat % 2 ^ w := by
  rw [UInt8.toNat_and, hmask, Nat.and_two_pow_sub_one_eq_mod]

theorem toNat_cut (a mask s : UInt8) (k w : ℕ) (hk : k < 8) (hs : s.toNat = k)
    (hmask : mask.toNat >>> k = 2 ^ w - 1) :
    ((a &&& mask) >>> s).toNat = a.toNat / 2 ^ k % 2 ^ w := by
  rw [UInt8.toNat_shiftRight, UInt8.toNat_and, hs, Nat.mod_eq_of_lt hk, Nat.shiftRight_and_distrib,
    hmask, Nat.and_two_pow_sub_one_eq_mod, Nat.shiftRight_eq_div_pow]

theorem toNat_raise {a s : UInt8} (k : ℕ) (hk : k < 8) (hs : s.toNat = k)
    (h : 2 ^ k * a.toNat < 2 ^ 8) : (a <<< s).toNat = 2 ^ k * a.toNat := by
  rw [UInt8.toNat_shiftLeft, hs, Nat.mod_eq_of_lt hk, Nat.shiftLeft_eq, Nat.mul_comm,
    Nat.mod_eq_of_lt h]

theorem digit_parts {a : UInt8} (h : a.toNat < 64) : (a <<< 2).toNat = 2 ^ 2 * a.toNat ∧
    ((a &&& 0x30) >>> 4).toNat = a.toNat / 16 ∧
    ((a &&& 0xf) <<< 4).toNat = 2 ^ 4 * (a.toNat % 16) ∧
    ((a &&& 0x3c) >>> 2).toNat = a.toNat / 4 ∧
    ((a &&& 0x3) <<< 6).toNat = 2 ^ 6 * (a.toNat % 4) := by
  have hfour : (a &&& 0xf).toNat = a.toNat % 16 := toNat_mask a 0xf 4 rfl
  have htwo : (a &&& 0x3).toNat = a.toNat % 4 := toNat_mask a 0x3 2 rfl
  have hhigh := toNat_cut a 0x30 4 4 2 (by decide) rfl rfl
  have hmiddle := toNat_cut a 0x3c 2 2 4 (by decide) rfl rfl
  refine ⟨toNat_raise 2 (by decide) rfl (by omega), by omega, ?_, by omega, ?_⟩
  · rw [toNat_raise 4 (by decide) rfl (by omega), hfour]
  · rw [toNat_raise 6 (by decide) rfl (by omega), htwo]

theorem byte_parts (a : UInt8) : ((a &&& 0xfc) >>> 2).toNat = a.toNat / 4 ∧
    ((a &&& 0x03) <<< 4).toNat = 2 ^ 4 * (a.toNat % 4) ∧
    ((a &&& 0xf0) >>> 4).toNat = a.toNat / 16 ∧
    ((a &&& 0x0f) <<< 2).toNat = 2 ^ 2 * (a.toNat % 16) ∧
    ((a &&& 0xc0) >>> 6).toNat = a.toNat / 64 ∧ (a &&& 0x3f).toNat = a.toNat % 64 := by
  have ha := a.toNat_lt
  have htwo : (a &&& 0x03).toNat = a.toNat % 4 := toNat_mask a 0x03 2 rfl
  have hfour : (a &&& 0x0f).toNat = a.toNat % 16 := toNat_mask a 0x0f 4 rfl
  have hsix := toNat_cut a 0xfc 2 2 6 (by decide) rfl rfl
  have hhigh := toNat_cut a 0xf0 4 4 4 (by decide) rfl rfl
  have htop := toNat_cut a 0xc0 6 6 2 (by decide) rfl rfl
  refine ⟨by omega, ?_, by omega, ?_, by omega, toNat_mask a 0x3f 6 rfl⟩
  · rw [toNat_raise 4 (by decide) rfl (by omega), htwo]
  · rw [toNat_raise 2 (by decide) rfl (by omega), hfour]

end Digits

section Groups

variable {a b c d : UInt8}

theorem toNat_sum {x y : UInt8} {h l : ℕ} (hx : x.toNat = h) (hy : y.toNat = l)
    (hsum : h + l < 256) : (x + y).toNat = h + l := by
  rw [UInt8.toNat_add, hx, hy, Nat.mod_eq_of_lt hsum]

theorem first_octet (ha : a.toNat < 64) (hb : b.toNat < 64) :
    octet ((a <<< 2) + ((b &&& 0x30) >>> 4)) = bits 6 a.toNat ++ bits 2 (b.toNat / 16) := by
  obtain ⟨hhigh, -⟩ := digit_parts ha
  obtain ⟨-, hlow, -⟩ := digit_parts hb
  rw [octet, toNat_sum hhigh hlow (by omega), bits_append 6 _ (by omega)]

theorem second_octet (hb : b.toNat < 64) (hc : c.toNat < 64) :
    octet (((b &&& 0xf) <<< 4) + ((c &&& 0x3c) >>> 2)) =
      bits 4 (b.toNat % 16) ++ bits 4 (c.toNat / 4) := by
  obtain ⟨-, -, hhigh, -⟩ := digit_parts hb
  obtain ⟨-, -, -, hlow, -⟩ := digit_parts hc
  rw [octet, toNat_sum hhigh hlow (by omega), bits_append 4 _ (by omega)]

theorem third_octet (hc : c.toNat < 64) (hd : d.toNat < 64) :
    octet (((c &&& 0x3) <<< 6) + d) = bits 2 (c.toNat % 4) ++ bits 6 d.toNat := by
  obtain ⟨-, -, -, -, hhigh⟩ := digit_parts hc
  rw [octet, toNat_sum hhigh rfl (by omega), bits_append 2 _ hd]

theorem split_second (b : UInt8) : sextet b = bits 2 (b.toNat / 16) ++ bits 4 (b.toNat % 16) :=
  bits_split 2 4 _

theorem split_third (c : UInt8) : sextet c = bits 4 (c.toNat / 4) ++ bits 2 (c.toNat % 4) :=
  bits_split 4 2 _

theorem charArray3_bits (ha : a.toNat < 64) (hb : b.toNat < 64) (hc : c.toNat < 64)
    (hd : d.toNat < 64) : (charArray3 a b c d).flatMap octet = [a, b, c, d].flatMap sextet := by
  simp only [charArray3, List.flatMap_cons, List.flatMap_nil, List.append_nil, first_octet ha hb,
    second_octet hb hc, third_octet hc hd, split_second b, split_third c, List.append_assoc]
  rfl

theorem first_digit (a : UInt8) : ((a &&& 0xfc) >>> 2).toNat = a.toNat / 4 := (byte_parts a).1

theorem second_digit (a b : UInt8) : (((a &&& 0x03) <<< 4) + ((b &&& 0xf0) >>> 4)).toNat =
    2 ^ 4 * (a.toNat % 4) + b.toNat / 16 := by
  have hb := b.toNat_lt
  obtain ⟨-, hhigh, -⟩ := byte_parts a
  obtain ⟨-, -, hlow, -⟩ := byte_parts b
  exact toNat_sum hhigh hlow (by omega)

theorem third_digit (b c : UInt8) : (((b &&& 0x0f) <<< 2) + ((c &&& 0xc0) >>> 6)).toNat =
    2 ^ 2 * (b.toNat % 16) + c.toNat / 64 := by
  have hc := c.toNat_lt
  obtain ⟨-, -, -, hhigh, -⟩ := byte_parts b
  obtain ⟨-, -, -, -, hlow, -⟩ := byte_parts c
  exact toNat_sum hhigh hlow (by omega)

theorem fourth_digit (c : UInt8) : (c &&& 0x3f).toNat = c.toNat % 64 := (byte_parts c).2.2.2.2.2

theorem charArray4_lt (a b c : UInt8) : ∀ digit ∈ charArray4 a b c, digit.toNat < 64 := by
  have ha := a.toNat_lt
  have hb := b.toNat_lt
  have hc := c.toNat_lt
  simp only [charArray4, List.forall_mem_cons, List.not_mem_nil, false_implies, implies_true,
    and_true, first_digit, second_digit, third_digit, fourth_digit]
  omega

theorem second_sextet (a b : UInt8) : sextet (((a &&& 0x03) <<< 4) + ((b &&& 0xf0) >>> 4)) =
    bits 2 (a.toNat % 4) ++ bits 4 (b.toNat / 16) := by
  have hb := b.toNat_lt
  rw [sextet, second_digit, bits_append 2 _ (by omega)]

theorem third_sextet (b c : UInt8) : sextet (((b &&& 0x0f) <<< 2) + ((c &&& 0xc0) >>> 6)) =
    bits 4 (b.toNat % 16) ++ bits 2 (c.toNat / 64) := by
  have hc := c.toNat_lt
  rw [sextet, third_digit, bits_append 4 _ (by omega)]

theorem charArray4_bits (a b c : UInt8) :
    (charArray4 a b c).flatMap sextet = [a, b, c].flatMap octet := by
  have hsplita : octet a = bits 6 (a.toNat / 4) ++ bits 2 (a.toNat % 4) := bits_split 6 2 _
  have hsplitb : octet b = bits 4 (b.toNat / 16) ++ bits 4 (b.toNat % 16) := bits_split 4 4 _
  have hsplitc : octet c = bits 2 (c.toNat / 64) ++ bits 6 (c.toNat % 64) := bits_split 2 6 _
  have hfirst : sextet ((a &&& 0xfc) >>> 2) = bits 6 (a.toNat / 4) := by rw [sextet, first_digit]
  have hfourth : sextet (c &&& 0x3f) = bits 6 (c.toNat % 64) := by rw [sextet, fourth_digit]
  simp only [charArray4, List.flatMap_cons, List.flatMap_nil, List.append_nil, hfirst,
    second_sextet, third_sextet, hfourth, hsplita, hsplitb, hsplitc, List.append_assoc]

end Groups

section Encoding

/-- The digits of six bits that stand for the bytes, and how many characters fill
up the last group. -/
structure Spells (bytes ds : Bytes) (fillers : ℕ) : Prop where
  lt : ∀ digit ∈ ds, digit.toNat < 64
  bits : ds.flatMap sextet = bytes.flatMap octet ++ List.replicate (2 * fillers) false
  fillers : fillers < 3

theorem Spells.group {bytes ds : Bytes} {n : ℕ} (h : Spells bytes ds n) (a b c : UInt8) :
    Spells (a :: b :: c :: bytes) (charArray4 a b c ++ ds) n where
  lt := List.forall_mem_append.mpr ⟨charArray4_lt a b c, h.lt⟩
  bits := by
    rw [List.flatMap_append, h.bits, charArray4_bits]
    simp only [List.flatMap_cons, List.flatMap_nil, List.append_nil, List.append_assoc]
  fillers := h.fillers

theorem bits_take {ds : Bytes} {n : ℕ} {front rest : List Bool}
    (h : ds.flatMap sextet = front ++ rest) (hn : n ≤ ds.length) (hfront : front.length = 6 * n) :
    (ds.take n).flatMap sextet = front := by
  rw [← List.take_append_drop n ds, List.flatMap_append] at h
  refine (List.append_inj h ?_).1
  rw [hfront]
  rw [sextet_length, List.length_take_of_le hn]

theorem Spells.one (a : UInt8) : Spells [a] ((charArray4 a 0 0).take 2) 2 where
  lt digit h := charArray4_lt a 0 0 digit (List.mem_of_mem_take h)
  bits := by
    have h : (charArray4 a 0 0).flatMap sextet =
        ([a].flatMap octet ++ List.replicate 4 false) ++ List.replicate 12 false :=
      (charArray4_bits a 0 0).trans (by simp [octet])
    exact bits_take h (by simp [charArray4]) (by simp [octet])
  fillers := by decide

theorem Spells.two (a b : UInt8) : Spells [a, b] ((charArray4 a b 0).take 3) 1 where
  lt digit h := charArray4_lt a b 0 digit (List.mem_of_mem_take h)
  bits := by
    have h : (charArray4 a b 0).flatMap sextet =
        ([a, b].flatMap octet ++ List.replicate 2 false) ++ List.replicate 6 false :=
      (charArray4_bits a b 0).trans (by simp [octet])
    exact bits_take h (by simp [charArray4]) (by simp [octet])
  fillers := by decide

theorem encodeLoop_spells (array bytes : Bytes) (h : array.length < 3) : ∃ ds n,
    encodeLoop array bytes = ds.map charAt ++ List.replicate n filler ∧
      Spells (array ++ bytes) ds n := by
  induction bytes generalizing array with
  | nil =>
    match array, h with
    | [], _ => exact ⟨[], 0, rfl, by simp, by simp, by decide⟩
    | [a], _ => exact ⟨_, 2, rfl, .one a⟩
    | [a, b], _ => exact ⟨_, 1, rfl, .two a b⟩
  | cons c bytes ih =>
    match array, h with
    | [], _ => exact ih [c] (by simp)
    | [a], _ => exact ih [a, c] (by simp)
    | [a, b], _ =>
      obtain ⟨ds, n, he, hds⟩ := ih [] (by simp)
      refine ⟨charArray4 a b c ++ ds, n, ?_, hds.group a b c⟩
      rw [encodeLoop, he, List.map_append, List.append_assoc]

end Encoding

section Decoding

def accepted (text : Bytes) : Bytes := text.takeWhile fun ch ↦ ch != filler && isBase64 ch

def digitBits (ch : UInt8) : List Bool := sextet (find ch)

theorem accepted_cons {ch : UInt8} (text : Bytes) (h : (ch != filler && isBase64 ch) = true) :
    accepted (ch :: text) = ch :: accepted text :=
  List.takeWhile_cons_of_pos h

theorem accepted_stop {ch : UInt8} (text : Bytes) (h : ¬(ch != filler && isBase64 ch) = true) :
    accepted (ch :: text) = [] :=
  List.takeWhile_cons_of_neg h

theorem find_lt_accepted {ch : UInt8} (h : (ch != filler && isBase64 ch) = true) :
    (find ch).toNat < 64 :=
  find_lt (Bool.and_eq_true_iff.mp h).2

theorem decodeLoop_stop {ch : UInt8} (array text : Bytes)
    (h : ¬(ch != filler && isBase64 ch) = true) :
    decodeLoop array (ch :: text) = decodeTail array := by
  unfold decodeLoop
  rw [if_neg h]

theorem decodeLoop_more {array : Bytes} {ch : UInt8} (text : Bytes) (hlen : array.length < 3)
    (h : (ch != filler && isBase64 ch) = true) :
    decodeLoop array (ch :: text) = decodeLoop (array ++ [ch]) text := by
  rw [decodeLoop, if_pos h]
  rintro a b c rfl
  exact absurd hlen (by simp)

theorem decodeTail_bits {array : Bytes} (hlen : array.length < 4)
    (hlt : ∀ ch ∈ array, (find ch).toNat < 64) : ∃ rest, rest.length < 8 ∧
      array.flatMap digitBits = (decodeTail array).flatMap octet ++ rest := by
  match array, hlen with
  | [], _ => exact ⟨[], by decide, rfl⟩
  | [a], _ => exact ⟨digitBits a, by simp [digitBits, sextet], by simp [decodeTail]⟩
  | [a, b], _ =>
    have htail : decodeTail [a, b] = [(find a <<< 2) + ((find b &&& 0x30) >>> 4)] := rfl
    refine ⟨bits 4 ((find b).toNat % 16), by simp, ?_⟩
    simp only [htail, List.flatMap_cons, List.flatMap_nil, List.append_nil, digitBits,
      first_octet (hlt a (by simp)) (hlt b (by simp)), split_second (find b), List.append_assoc]
    rfl
  | [a, b, c], _ =>
    have htail : decodeTail [a, b, c] = [(find a <<< 2) + ((find b &&& 0x30) >>> 4),
        ((find b &&& 0xf) <<< 4) + ((find c &&& 0x3c) >>> 2)] := rfl
    have hb := hlt b (by simp)
    refine ⟨bits 2 ((find c).toNat % 4), by simp, ?_⟩
    simp only [htail, List.flatMap_cons, List.flatMap_nil, List.append_nil, digitBits,
      first_octet (hlt a (by simp)) hb, second_octet hb (hlt c (by simp)), split_second (find b),
      split_third (find c), List.append_assoc]
    rfl

theorem decodeLoop_bits (array text : Bytes) (hlen : array.length < 4)
    (hlt : ∀ ch ∈ array, (find ch).toNat < 64) : ∃ rest, rest.length < 8 ∧
      (array ++ accepted text).flatMap digitBits =
        (decodeLoop array text).flatMap octet ++ rest := by
  induction text generalizing array with
  | nil =>
    obtain ⟨rest, hrest, he⟩ := decodeTail_bits hlen hlt
    exact ⟨rest, hrest, by rw [accepted, List.takeWhile_nil, List.append_nil, decodeLoop, he]⟩
  | cons ch text ih =>
    by_cases hch : (ch != filler && isBase64 ch) = true
    · have hdigit := find_lt_accepted hch
      rw [accepted_cons text hch]
      rcases Nat.lt_or_ge array.length 3 with hfree | hfull
      · obtain ⟨rest, hrest, he⟩ := ih (array ++ [ch])
          (by simpa using Nat.succ_lt_succ hfree)
          (List.forall_mem_append.mpr ⟨hlt, by simpa using hdigit⟩)
        refine ⟨rest, hrest, ?_⟩
        rw [decodeLoop_more text hfree hch, ← he, List.append_assoc, List.singleton_append]
      · obtain ⟨a, b, c, rfl⟩ := List.length_eq_three.mp (show array.length = 3 by omega)
        obtain ⟨rest, hrest, he⟩ := ih [] (by simp) (by simp)
        have hgroup := charArray3_bits (hlt a (by simp)) (hlt b (by simp)) (hlt c (by simp)) hdigit
        refine ⟨rest, hrest, ?_⟩
        rw [decodeLoop, if_pos hch, @List.flatMap_append _ _ (charArray3 _ _ _ _),
          List.append_assoc, ← he, hgroup]
        simp only [List.cons_append, List.nil_append, List.flatMap_cons, List.flatMap_nil,
          List.append_nil, List.append_assoc, digitBits]
    · obtain ⟨rest, hrest, he⟩ := decodeTail_bits hlen hlt
      refine ⟨rest, hrest, ?_⟩
      rw [accepted_stop text hch, List.append_nil, decodeLoop_stop array text hch, he]

theorem decode_iff {text bytes : Bytes} : decode text = bytes ↔ ∃ rest, rest.length < 8 ∧
    (accepted text).flatMap digitBits = bytes.flatMap octet ++ rest := by
  obtain ⟨rest, hrest, he⟩ := decodeLoop_bits [] text (by simp) (by simp)
  rw [List.nil_append] at he
  constructor
  · rintro rfl
    exact ⟨rest, hrest, he⟩
  · rintro ⟨rest', hrest', he'⟩
    rw [he] at he'
    exact groups_inj (fun _ _ ↦ UInt8.toNat_inj.mp) UInt8.toNat_lt hrest hrest' he'

end Decoding

section RoundTrip

theorem accepted_digits {ds : Bytes} (text : Bytes) (h : ∀ digit ∈ ds, digit.toNat < 64) :
    accepted (ds.map charAt ++ text) = ds.map charAt ++ accepted text := by
  induction ds with
  | nil => rfl
  | cons d ds ih =>
    obtain ⟨hd, hds⟩ := List.forall_mem_cons.mp h
    rw [List.map_cons, List.cons_append, accepted_cons _ (charAt_digit hd).2, ih hds,
      List.cons_append]

theorem digitBits_digits {ds : Bytes} (h : ∀ digit ∈ ds, digit.toNat < 64) :
    (ds.map charAt).flatMap digitBits = ds.flatMap sextet := by
  rw [List.flatMap_map]
  exact List.flatMap_congr fun d hd ↦ by rw [digitBits, (charAt_digit (h d hd)).1]

/-- `decode` reads back what `encode` has written. Behind a filled up last group
it reads no further. -/
theorem decode_encode (bytes text : Bytes) :
    decode (encode bytes ++ text) =
      if 3 ∣ bytes.length then bytes ++ decode text else bytes := by
  obtain ⟨ds, n, he, hspells⟩ := encodeLoop_spells [] bytes (by simp)
  rw [List.nil_append] at hspells
  have hlen := congrArg List.length hspells.bits
  rw [sextet_length, List.length_append, octet_length, List.length_replicate] at hlen
  have hfillers := hspells.fillers
  rw [encode, he]
  split_ifs with h
  · obtain rfl : n = 0 := by omega
    obtain ⟨rest, hrest, htext⟩ := decode_iff.mp (rfl : decode text = decode text)
    refine decode_iff.mpr ⟨rest, hrest, ?_⟩
    rw [List.replicate_zero, List.append_nil, accepted_digits _ hspells.lt, List.flatMap_append,
      digitBits_digits hspells.lt, hspells.bits, htext, List.flatMap_append, List.append_assoc]
    rw [Nat.mul_zero, List.replicate_zero, List.nil_append, List.append_assoc]
  · obtain ⟨m, rfl⟩ : ∃ m, n = m + 1 := Nat.exists_eq_succ_of_ne_zero (by omega)
    refine decode_iff.mpr ⟨List.replicate (2 * (m + 1)) false, by simp; omega, ?_⟩
    rw [List.append_assoc, accepted_digits _ hspells.lt, List.replicate_succ, List.cons_append,
      accepted_stop _ (by decide), List.append_nil, digitBits_digits hspells.lt, hspells.bits]

end RoundTrip

end FheBlockchain.Core.Base64
