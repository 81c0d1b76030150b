import Sypl.GoString
import Mathlib.Algebra.Group.Nat.Basic

/-!
# Runes and case folding

The `strings` functions that read a Go string as runes. `for _, r := range s` decodes it with
`utf8.DecodeRune` from each position: a valid encoding gives its rune, and any other byte gives
`utf8.RuneError` and moves on by one (`runes`). `utf8.RuneCount` is the number of runes. The
decoder inverts Lean's encoder: the runes of an encoded text are its characters
(`runes_ofString`).

* `strings.EqualFold s t` holds when the runes of `s` and `t` agree one by one up to simple
  case folding. ASCII folds as Go's tables fold it; outside ASCII the class of a rune is read from
  the Unicode tables, which the model takes as an argument `fold`. For every table it is an
  equivalence (`equalFold_refl`, `equalFold_comm`, `equalFold_congr`), and on ASCII strings it
  does not read the table (`equalFold_of_ascii`).
* `strings.ToLower` lowers an ASCII string byte by byte and maps the runes of any other string
  through `unicode.ToLower` (`toLower`).
-/

namespace Sypl

namespace GoString

/-- `utf8.RuneError`, U+FFFD. -/
def runeError : Char := '�'

/-- `lo ≤ b ≤ hi`, the accept range of a continuation byte. -/
def inRange (lo hi b : Nat) : Bool := lo ≤ b && b ≤ hi

/-- `utf8.DecodeRune(b₀ :: s)`: the rune the first bytes encode and their number, or `RuneError`
of width 1 when they are not valid UTF-8. The first byte gives the width and the accept range of
the second (the tables `first` and `acceptRanges` of `unicode/utf8`); a byte past the end of `s`
reads as `0`, which is in no range. -/
def decodeRune (b₀ : UInt8) (s : GoString) : Char × Nat :=
  let x := b₀.toNat
  let x₁ := (s.getD 0 0).toNat
  let x₂ := (s.getD 1 0).toNat
  let x₃ := (s.getD 2 0).toNat
  if x < 0x80 then (Char.ofNat x, 1)
  else if 0xC2 ≤ x ∧ x ≤ 0xDF ∧ inRange 0x80 0xBF x₁ then
    (Char.ofNat ((x - 0xC0) * 0x40 + (x₁ - 0x80)), 2)
  else if 0xE0 ≤ x ∧ x ≤ 0xEF ∧ inRange 0x80 0xBF x₂ ∧
      (if x = 0xE0 then inRange 0xA0 0xBF x₁
        else if x = 0xED then inRange 0x80 0x9F x₁ else inRange 0x80 0xBF x₁) then
    (Char.ofNat ((x - 0xE0) * 0x1000 + (x₁ - 0x80) * 0x40 + (x₂ - 0x80)), 3)
  else if 0xF0 ≤ x ∧ x ≤ 0xF4 ∧ inRange 0x80 0xBF x₂ ∧ inRange 0x80 0xBF x₃ ∧
      (if x = 0xF0 then inRange 0x90 0xBF x₁
        else if x = 0xF4 then inRange 0x80 0x8F x₁ else inRange 0x80 0xBF x₁) then
    (Char.ofNat ((x - 0xF0) * 0x40000 + (x₁ - 0x80) * 0x1000 + (x₂ - 0x80) * 0x40 +
      (x₃ - 0x80)), 4)
  else (runeError, 1)

/-- The range loop over a string from a position: decode a rune, then pass over the `skip`
further bytes it took. -/
def runesFrom : Nat → GoString → List Char
  | _, [] => []
  | skip + 1, _ :: s => runesFrom skip s
  | 0, b :: s => (decodeRune b s).1 :: runesFrom ((decodeRune b s).2 - 1) s

/-- `for _, r := range s`: the runes of `s`. -/
def runes (s : GoString) : List Char := runesFrom 0 s

/-- `utf8.RuneCount`. -/
def runeCount (s : GoString) : Nat := (runes s).length

/-- A string of ASCII bytes. -/
def IsASCII (s : GoString) : Prop := ∀ b ∈ s, b < 0x80

instance (s : GoString) : Decidable (IsASCII s) := inferInstanceAs (Decidable (∀ b ∈ s, b < 0x80))

theorem decodeRune_of_lt {b : UInt8} (h : b < 0x80) (s : GoString) :
    decodeRune b s = (Char.ofNat b.toNat, 1) := if_pos h

theorem runes_eq_nil_iff {s : GoString} : runes s = [] ↔ s = [] := by
  cases s <;> simp [runes, runesFrom]

/-- An ASCII string is its bytes read as runes. -/
theorem runes_of_ascii {s : GoString} (h : IsASCII s) : runes s = s.map (Char.ofNat ·.toNat) := by
  induction s with
  | nil => rfl
  | cons b s ih =>
    have hb : b < 0x80 := h b (List.mem_cons_self b s)
    simp only [runes, runesFrom, decodeRune_of_lt hb, Nat.sub_self, List.map_cons]
    exact congrArg _ (ih fun x hx => h x (List.mem_cons_of_mem b hx))

/-! ## Decoding what Lean encodes

`DecodeRune` inverts Lean's `String.utf8EncodeChar`, so the runes of the encoding of a text are
its characters (`runes_ofString`). The bytes of an encoding are read as numbers: the bits of the
code point from a given bit on, under the byte's marker. -/

theorem toNat_shiftRight (v n : UInt32) (hn : n.toNat < 32) :
    (v >>> n).toNat = v.toNat / 2 ^ n.toNat := by
  show (v.toBitVec >>> (n.mod 32).toBitVec.toNat).toNat = _
  rw [BitVec.toNat_ushiftRight, Nat.shiftRight_eq_div_pow]
  show v.toNat / 2 ^ (n.toNat % 32) = _
  rw [Nat.mod_eq_of_lt hn]

theorem toNat_toUInt8 (v : UInt32) : v.toUInt8.toNat = v.toNat % 256 := by
  simp [UInt32.toUInt8, Nat.toUInt8, UInt8.toNat, UInt8.ofNat, BitVec.toNat_ofNat]

/-- A byte of an encoding: the low `j` bits of `x`, under the marker `l`. -/
theorem toNat_and_or_of_lt (x m l : UInt8) (j : Nat) (hm : m.toNat = 2 ^ j - 1)
    (hl : ∀ n < 2 ^ j, n ||| l.toNat = l.toNat + n) :
    (x &&& m ||| l).toNat = l.toNat + x.toNat % 2 ^ j := by
  rw [toNat_and_or, hm, Nat.and_pow_two_sub_one_eq_mod, hl _ (Nat.mod_lt _ (Nat.two_pow_pos j))]

/-- A byte of an encoding: the `j` bits of the code point from bit `n` on, under the marker `l`. -/
theorem toNat_byte (v n : UInt32) (hn : n.toNat < 32) (m l : UInt8) (j : Nat) (hj : j ≤ 8)
    (hm : m.toNat = 2 ^ j - 1) (hl : ∀ k < 2 ^ j, k ||| l.toNat = l.toNat + k) :
    ((v >>> n).toUInt8 &&& m ||| l).toNat = l.toNat + v.toNat / 2 ^ n.toNat % 2 ^ j := by
  rw [toNat_and_or_of_lt _ _ _ j hm hl, toNat_toUInt8, toNat_shiftRight _ _ hn,
    Nat.mod_mod_of_dvd _ (Nat.pow_dvd_pow 2 hj)]

/-- The last byte of an encoding of two bytes or more. -/
theorem toNat_byte_last (v : UInt32) :
    (v.toUInt8 &&& 0x3f ||| 0x80).toNat = 0x80 + v.toNat % 64 := by
  rw [toNat_and_or_of_lt _ 0x3f _ 6 rfl (by decide), toNat_toUInt8, Nat.mod_mod_of_dvd _ (by decide)]
  rfl

/-- `DecodeRune` of a two-byte encoding. -/
theorem decodeRune_two {v : Nat} (hv : 0x80 ≤ v ∧ v < 0x800) {b₀ b₁ : UInt8}
    (h₀ : b₀.toNat = 0xC0 + v / 64 % 32) (h₁ : b₁.toNat = 0x80 + v % 64) (s : GoString) :
    decodeRune b₀ (b₁ :: s) = (Char.ofNat v, 2) := by
  simp only [decodeRune, List.getD_cons_zero, h₀, h₁, inRange]
  rw [if_neg (by omega), if_pos (by simp; omega)]
  exact congrArg (fun n => (Char.ofNat n, 2)) (by omega)

/-- `DecodeRune` of a three-byte encoding, not of a surrogate. -/
theorem decodeRune_three {v : Nat} (hv : 0x800 ≤ v ∧ v < 0x10000) (hs : v < 0xD800 ∨ 0xDFFF < v)
    {b₀ b₁ b₂ : UInt8} (h₀ : b₀.toNat = 0xE0 + v / 4096 % 16) (h₁ : b₁.toNat = 0x80 + v / 64 % 64)
    (h₂ : b₂.toNat = 0x80 + v % 64) (s : GoString) :
    decodeRune b₀ (b₁ :: b₂ :: s) = (Char.ofNat v, 3) := by
  simp only [decodeRune, List.getD_cons_zero, List.getD_cons_succ, h₀, h₁, h₂, inRange]
  rw [if_neg (by omega), if_neg (by omega), if_pos]
  · exact congrArg (fun n => (Char.ofNat n, 3)) (by omega)
  · simp only [Bool.and_eq_true, decide_eq_true_eq]
    split_ifs <;> simp only [Bool.and_eq_true, decide_eq_true_eq] <;> omega

/-- `DecodeRune` of a four-byte encoding. -/
theorem decodeRune_four {v : Nat} (hv : 0x10000 ≤ v ∧ v < 0x110000) {b₀ b₁ b₂ b₃ : UInt8}
    (h₀ : b₀.toNat = 0xF0 + v / 262144 % 8) (h₁ : b₁.toNat = 0x80 + v / 4096 % 64)
    (h₂ : b₂.toNat = 0x80 + v / 64 % 64) (h₃ : b₃.toNat = 0x80 + v % 64) (s : GoString) :
    decodeRune b₀ (b₁ :: b₂ :: b₃ :: s) = (Char.ofNat v, 4) := by
  simp only [decodeRune, List.getD_cons_zero, List.getD_cons_succ, h₀, h₁, h₂, h₃, inRange]
  rw [if_neg (by omega), if_neg (by omega), if_neg (by omega), if_pos]
  · exact congrArg (fun n => (Char.ofNat n, 4)) (by omega)
  · simp only [Bool.and_eq_true, decide_eq_true_eq]
    split_ifs <;> simp only [Bool.and_eq_true, decide_eq_true_eq] <;> omega

/-- `DecodeRune` reads back a character from its encoding, whatever follows. -/
theorem decodeRune_utf8EncodeChar (c : Char) (s : GoString) :
    ∃ b rest, String.utf8EncodeChar c = b :: rest ∧
      decodeRune b (rest ++ s) = (c, rest.length + 1) := by
  have hc := Char.ofNat_toNat c
  have hvalid : c.toNat < 0xD800 ∨ 0xDFFF < c.toNat ∧ c.toNat < 0x110000 := c.valid
  have cont6 : ((c.val >>> 6).toUInt8 &&& 0x3f ||| 0x80).toNat = 0x80 + c.toNat / 64 % 64 :=
    toNat_byte _ 6 (by decide) _ _ 6 (by omega) rfl (by decide)
  have cont12 : ((c.val >>> 12).toUInt8 &&& 0x3f ||| 0x80).toNat = 0x80 + c.toNat / 4096 % 64 :=
    toNat_byte _ 12 (by decide) _ _ 6 (by omega) rfl (by decide)
  have last := toNat_byte_last c.val
  simp only [String.utf8EncodeChar]
  split_ifs with h1 h2 h3
  · have h1 : c.toNat ≤ 0x7f := h1
    have hb : c.val.toUInt8.toNat = c.toNat := by
      rw [toNat_toUInt8]; exact Nat.mod_eq_of_lt (show c.toNat < 256 by omega)
    refine ⟨_, _, rfl, ?_⟩
    rw [decodeRune, hb, if_pos (by omega), hc]
    rfl
  · have h1 : ¬ c.toNat ≤ 0x7f := h1
    have h2 : c.toNat ≤ 0x7ff := h2
    have lead : ((c.val >>> 6).toUInt8 &&& 0x1f ||| 0xc0).toNat = 0xC0 + c.toNat / 64 % 32 :=
      toNat_byte _ 6 (by decide) _ _ 5 (by omega) rfl (by decide)
    refine ⟨_, _, rfl, (decodeRune_two ⟨by omega, by omega⟩ lead last s).trans ?_⟩
    rw [hc]
    rfl
  · have h2 : ¬ c.toNat ≤ 0x7ff := h2
    have h3 : c.toNat ≤ 0xffff := h3
    have lead : ((c.val >>> 12).toUInt8 &&& 0x0f ||| 0xe0).toNat = 0xE0 + c.toNat / 4096 % 16 :=
      toNat_byte _ 12 (by decide) _ _ 4 (by omega) rfl (by decide)
    refine ⟨_, _, rfl, (decodeRune_three ⟨by omega, by omega⟩ (by omega) lead cont6 last s).trans ?_⟩
    rw [hc]
    rfl
  · have h3 : ¬ c.toNat ≤ 0xffff := h3
    have lead : ((c.val >>> 18).toUInt8 &&& 0x07 ||| 0xf0).toNat = 0xF0 + c.toNat / 262144 % 8 :=
      toNat_byte _ 18 (by decide) _ _ 3 (by omega) rfl (by decide)
    refine ⟨_, _, rfl, (decodeRune_four ⟨by omega, by omega⟩ lead cont12 cont6 last s).trans ?_⟩
    rw [hc]
    rfl

theorem runesFrom_length_append (l t : GoString) : runesFrom l.length (l ++ t) = runesFrom 0 t := by
  induction l with
  | nil => rfl
  | cons b l ih => exact ih

theorem runes_utf8EncodeChar_append (c : Char) (t : GoString) :
    runes (String.utf8EncodeChar c ++ t) = c :: runes t := by
  obtain ⟨b, rest, he, hd⟩ := decodeRune_utf8EncodeChar c t
  rw [he, List.cons_append, runes, runesFrom, hd, Nat.add_sub_cancel, runesFrom_length_append]
  rfl

/-- The runes of the encoding of a text are its characters. -/
theorem runes_ofString (t : String) : runes (ofString t) = t.data := by
  obtain ⟨cs⟩ := t
  induction cs with
  | nil => rfl
  | cons c cs ih => rw [ofString_cons, runes_utf8EncodeChar_append, ih]

theorem runeCount_ofString (t : String) : runeCount (ofString t) = t.length := by
  rw [runeCount, runes_ofString]
  rfl

/-! ## `strings.EqualFold` -/

/-- The class of a rune under simple case folding (the orbits of `unicode.SimpleFold`): an
ASCII letter is in the class of its upper case, another ASCII rune in its own, and a rune outside
ASCII in the class `fold` reads from the Unicode tables (for the long `ſ` and the Kelvin sign,
those of `S` and `K`). -/
def foldClass (fold : Char → Char) (r : Char) : Char :=
  if r.toNat < 0x80 then (if 'a' ≤ r ∧ r ≤ 'z' then Char.ofNat (r.toNat - 32) else r) else fold r

/-- `strings.EqualFold(s, t)`: the runes of `s` and `t` agree one by one up to simple case
folding. -/
def equalFold (fold : Char → Char) (s t : GoString) : Bool :=
  (runes s).map (foldClass fold) == (runes t).map (foldClass fold)

section EqualFold

variable (fold : Char → Char)

theorem equalFold_iff {s t : GoString} :
    equalFold fold s t ↔ (runes s).map (foldClass fold) = (runes t).map (foldClass fold) :=
  beq_iff_eq

theorem equalFold_refl (s : GoString) : equalFold fold s s := (equalFold_iff fold).2 rfl

theorem equalFold_comm (s t : GoString) : equalFold fold s t = equalFold fold t s := by
  rw [Bool.eq_iff_iff, equalFold_iff, equalFold_iff, eq_comm]

/-- Strings that fold alike compare alike with every string. -/
theorem equalFold_congr {s t : GoString} (h : equalFold fold s t) (u : GoString) :
    equalFold fold s u = equalFold fold t u := by
  rw [Bool.eq_iff_iff, equalFold_iff, equalFold_iff, (equalFold_iff fold).1 h]

/-- Replacing both sides by strings that fold alike keeps the comparison. -/
theorem equalFold_congr₂ {s s' t t' : GoString} (hs : equalFold fold s s') (ht : equalFold fold t t') :
    equalFold fold s' t' = equalFold fold s t := by
  rw [← equalFold_congr fold hs, equalFold_comm, ← equalFold_congr fold ht, equalFold_comm]

/-- Only the empty string folds like the empty string. -/
theorem equalFold_nil_iff {t : GoString} : equalFold fold [] t ↔ t = [] := by
  rw [equalFold_iff, eq_comm, show runes [] = [] from rfl, List.map_nil, List.map_eq_nil_iff,
    runes_eq_nil_iff]

theorem foldClass_of_lt {r : Char} (h : r.toNat < 0x80) (fold' : Char → Char) :
    foldClass fold r = foldClass fold' r := by
  simp only [foldClass, if_pos h]

/-- On ASCII strings `EqualFold` never reads the Unicode tables. -/
theorem equalFold_of_ascii {s t : GoString} (hs : IsASCII s) (ht : IsASCII t)
    (fold' : Char → Char) : equalFold fold s t = equalFold fold' s t := by
  have hmap : ∀ {u : GoString}, IsASCII u →
      (runes u).map (foldClass fold) = (runes u).map (foldClass fold') := fun hu => by
    rw [runes_of_ascii hu, List.map_map, List.map_map]
    refine List.map_congr_left fun b hb => foldClass_of_lt fold ?_ fold'
    have hb := hu b hb
    rw [UInt8.lt_def] at hb
    simpa [Char.toNat, Char.ofNat, Char.ofNatAux, Nat.isValidChar,
      show b.toNat < 0xd800 by simp only [UInt8.toNat] at hb ⊢; omega] using hb
  simp only [equalFold, hmap hs, hmap ht]

/-- On texts, `EqualFold` compares the characters up to folding. -/
theorem equalFold_ofString (s t : String) :
    equalFold fold (ofString s) (ofString t) ↔
      s.data.map (foldClass fold) = t.data.map (foldClass fold) := by
  rw [equalFold_iff, runes_ofString, runes_ofString]

end EqualFold

/-! ## `strings.ToLower` -/

/-- `strings.ToLower(s)`: when every byte is ASCII, `A` to `Z` lowered one by one; otherwise
`strings.Map(unicode.ToLower, s)` with `lower` for `unicode.ToLower`, which writes the encoding of
each rune's lower case (an invalid byte being `RuneError`). -/
def toLower (lower : Char → Char) (s : GoString) : GoString :=
  if s.all (· < 0x80) then s.map fun b => if 65 ≤ b ∧ b ≤ 90 then b + 32 else b
  else (runes s).flatMap fun r => String.utf8EncodeChar (lower r)

theorem toLower_of_ascii {s : GoString} (h : IsASCII s) (lower : Char → Char) :
    toLower lower s = s.map fun b => if 65 ≤ b ∧ b ≤ 90 then b + 32 else b :=
  if_pos (List.all_eq_true.2 fun b hb => decide_eq_true (h b hb))

end GoString

end Sypl
