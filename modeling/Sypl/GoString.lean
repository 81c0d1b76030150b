import Mathlib.Data.List.Infix
import Mathlib.Data.List.Basic

/-!
# Go strings

A Go `string` is an immutable sequence of bytes with no promise of valid UTF-8, so the model
is a `List UInt8`. A Go literal is the UTF-8 encoding of its text (`GoString.ofString`, also a
coercion). The library functions the logger calls on names are byte searches:

* `strings.Contains s substr` holds exactly when `substr` is an infix of `s` (`contains_iff`);
* `strings.Join` puts the separator between consecutive elements (`join`);
* an element is an infix of the join (`infix_join_of_mem`), and a nonempty pattern free of a
  one-byte separator occurs in a join only inside one element (`exists_mem_infix_of_infix_join`).
-/

namespace Sypl

/-- A Go `string`: its bytes. -/
abbrev GoString := List UInt8

namespace GoString

/-- The bytes of a Go string literal, the UTF-8 encoding of its text. -/
def ofString (s : String) : GoString := s.data.flatMap String.utf8EncodeChar

instance : Coe String GoString := ⟨ofString⟩

/-- `strings.Contains`: some suffix of `s` starts with `substr`. -/
def contains (s substr : GoString) : Bool := s.tails.any (substr.isPrefixOf ·)

theorem contains_iff {s substr : GoString} : contains s substr = true ↔ substr <:+: s := by
  simp only [contains, List.any_eq_true, List.mem_tails, List.isPrefixOf_iff_prefix]
  constructor
  · rintro ⟨t, ht, hp⟩
    exact hp.isInfix.trans ht.isInfix
  · rintro ⟨a, b, rfl⟩
    exact ⟨substr ++ b, ⟨a, by simp⟩, List.prefix_append _ _⟩

theorem contains_eq_false_iff {s substr : GoString} :
    contains s substr = false ↔ ¬ substr <:+: s := by
  rw [← contains_iff, Bool.not_eq_true]

/-- `strings.Join`: the elements with `sep` between consecutive ones. -/
def join : List GoString → GoString → GoString
  | [], _ => []
  | [e], _ => e
  | e :: es, sep => e ++ sep ++ join es sep

@[simp] theorem join_nil (sep : GoString) : join [] sep = [] := rfl

@[simp] theorem join_singleton (e sep : GoString) : join [e] sep = e := rfl

theorem join_cons_cons (e e' : GoString) (es : List GoString) (sep : GoString) :
    join (e :: e' :: es) sep = e ++ sep ++ join (e' :: es) sep := rfl

theorem infix_join_of_mem {x : GoString} {xs : List GoString} (sep : GoString) (h : x ∈ xs) :
    x <:+: join xs sep := by
  induction xs with
  | nil => cases h
  | cons e es ih =>
    cases es with
    | nil => rw [List.mem_singleton.1 h]; exact List.infix_refl _
    | cons e' es =>
      rw [join_cons_cons]
      rcases List.mem_cons.1 h with rfl | h
      · exact (List.prefix_append _ _).isInfix.trans (List.prefix_append _ _).isInfix
      · exact (ih h).trans (List.suffix_append _ _).isInfix

/-- A nonempty pattern without the byte `b` that occurs around one `b` occurs on one side. -/
theorem infix_or_infix_of_infix_append_cons {p l₁ l₂ : GoString} {b : UInt8} (hp : p ≠ [])
    (hb : b ∉ p) (h : p <:+: l₁ ++ b :: l₂) : p <:+: l₁ ∨ p <:+: l₂ := by
  obtain ⟨s, t, hst⟩ := h
  rw [List.append_assoc, List.append_eq_append_iff] at hst
  rcases hst with ⟨a, rfl, hpt⟩ | ⟨c, rfl, hc⟩
  · rcases List.append_eq_append_iff.1 hpt with ⟨a', rfl, -⟩ | ⟨c', rfl, hc'⟩
    · exact .inl ⟨s, a', by simp⟩
    · cases c' with
      | nil => exact .inl ⟨s, [], by simp⟩
      | cons x c' =>
        obtain ⟨rfl, -⟩ := List.cons.inj hc'
        exact absurd (by simp) hb
  · cases c with
    | nil =>
      obtain ⟨x, p', rfl⟩ := List.exists_cons_of_ne_nil hp
      simp only [List.nil_append, List.cons_append, List.cons.injEq] at hc
      exact absurd (hc.1 ▸ List.mem_cons_self _ _) hb
    | cons x c =>
      obtain ⟨-, rfl⟩ := List.cons.inj hc
      exact .inr ⟨c, t, by simp⟩

/-- A nonempty pattern free of a one-byte separator occurs in a join only inside an element:
a separator never takes part in an occurrence. -/
theorem exists_mem_infix_of_infix_join {p : GoString} {b : UInt8} (hp : p ≠ []) (hb : b ∉ p) :
    ∀ {xs : List GoString}, p <:+: join xs [b] → ∃ x ∈ xs, p <:+: x
  | [], h => absurd (List.eq_nil_of_infix_nil h) hp
  | [e], h => ⟨e, List.mem_singleton_self e, h⟩
  | e :: e' :: es, h => by
    rw [join_cons_cons, List.append_assoc, List.singleton_append] at h
    rcases infix_or_infix_of_infix_append_cons hp hb h with h | h
    · exact ⟨e, List.mem_cons_self _ _, h⟩
    · obtain ⟨x, hx, hpx⟩ := exists_mem_infix_of_infix_join hp hb h
      exact ⟨x, List.mem_cons_of_mem _ hx, hpx⟩

/-- A nonempty pattern free of a one-byte separator occurs in a join exactly when it is one of
the elements, when it occurs in no other element. -/
theorem contains_join_iff {p : GoString} {b : UInt8} {xs : List GoString} (hp : p ≠ [])
    (hb : b ∉ p) (hx : ∀ x ∈ xs, p <:+: x → x = p) : contains (join xs [b]) p = true ↔ p ∈ xs := by
  rw [contains_iff]
  refine ⟨fun h => ?_, infix_join_of_mem _⟩
  obtain ⟨x, hx', hpx⟩ := exists_mem_infix_of_infix_join hp hb h
  exact hx x hx' hpx ▸ hx'

theorem join_eq_intercalate (sep : GoString) :
    ∀ xs : List GoString, join xs sep = sep.intercalate xs
  | [] => rfl
  | [e] => by simp [List.intercalate]
  | e :: e' :: es => by
    rw [join_cons_cons, join_eq_intercalate sep (e' :: es)]
    simp [List.intercalate, List.intersperse_cons_cons, List.append_assoc]

/-- Joining the pieces of a split at a byte gives back the string. -/
theorem join_splitOn (s : GoString) (b : UInt8) : join (s.splitOn b) [b] = s := by
  rw [join_eq_intercalate, List.intercalate_splitOn]

/-! ## UTF-8 -/

/-- Valid UTF-8: the encoding of some text. -/
def Valid (s : GoString) : Prop := ∃ t : String, ofString t = s

theorem ofString_cons (c : Char) (cs : List Char) :
    ofString ⟨c :: cs⟩ = String.utf8EncodeChar c ++ ofString ⟨cs⟩ := List.flatMap_cons _ _ _

/-- The length of a character's encoding, read from its first byte. -/
def leadWidth (b : UInt8) : Nat :=
  if b.toNat < 0x80 then 1 else if b.toNat < 0xE0 then 2 else if b.toNat < 0xF0 then 3 else 4

theorem toNat_and_or (x m l : UInt8) : (x &&& m ||| l).toNat = x.toNat &&& m.toNat ||| l.toNat := by
  rw [show (x &&& m ||| l).toNat = (x &&& m).toNat ||| l.toNat from BitVec.toNat_or ..,
    UInt8.and_toNat]

/-- The first bytes of two-, three- and four-byte encodings lie in their classes. -/
theorem lead_bounds (x : UInt8) :
    (192 ≤ (x &&& 0x1f ||| 0xc0).toNat ∧ (x &&& 0x1f ||| 0xc0).toNat < 224) ∧
    (224 ≤ (x &&& 0x0f ||| 0xe0).toNat ∧ (x &&& 0x0f ||| 0xe0).toNat < 240) ∧
    240 ≤ (x &&& 0x07 ||| 0xf0).toNat := by
  simp only [toNat_and_or]
  have k2 : ∀ n < 2 ^ 5, 192 ≤ n ||| 192 ∧ n ||| 192 < 224 := by decide
  have k3 : ∀ n < 2 ^ 4, 224 ≤ n ||| 224 ∧ n ||| 224 < 240 := by decide
  have k4 : ∀ n < 2 ^ 3, 240 ≤ n ||| 240 := by decide
  exact ⟨k2 _ (Nat.and_lt_two_pow _ (by decide)), k3 _ (Nat.and_lt_two_pow _ (by decide)),
    k4 _ (Nat.and_lt_two_pow _ (by decide))⟩

theorem toUInt8_toNat_of_le {v : UInt32} (h : v ≤ 0x7f) : v.toUInt8.toNat = v.toNat := by
  have : v.toNat ≤ 127 := UInt32.toNat_le_of_le (by decide) h
  simp only [UInt32.toUInt8, Nat.toUInt8, UInt8.toNat, UInt8.ofNat, BitVec.toNat_ofNat]
  omega

/-- A character's encoding starts with a byte that is not a continuation byte (`0x80`–`0xBF`)
and that gives the encoding's length. -/
theorem utf8EncodeChar_cons (c : Char) : ∃ b rest, String.utf8EncodeChar c = b :: rest ∧
    ¬ (0x80 ≤ b.toNat ∧ b.toNat < 0xC0) ∧ rest.length + 1 = leadWidth b := by
  simp only [String.utf8EncodeChar]
  split_ifs with h1 h2 h3
  · have : c.val.toNat ≤ 127 := UInt32.toNat_le_of_le (by decide) h1
    have hb := toUInt8_toNat_of_le h1
    exact ⟨_, _, rfl, by omega, by rw [leadWidth, if_pos (by omega)]; rfl⟩
  · have := (lead_bounds ((c.val >>> 6).toUInt8)).1
    refine ⟨_, _, rfl, by omega, ?_⟩
    simp only [leadWidth, List.length_cons, List.length_nil]
    split_ifs <;> omega
  · have := (lead_bounds ((c.val >>> 12).toUInt8)).2.1
    refine ⟨_, _, rfl, by omega, ?_⟩
    simp only [leadWidth, List.length_cons, List.length_nil]
    split_ifs <;> omega
  · have := (lead_bounds ((c.val >>> 18).toUInt8)).2.2
    refine ⟨_, _, rfl, by omega, ?_⟩
    simp only [leadWidth, List.length_cons, List.length_nil]
    split_ifs <;> omega

/-- A character from `0x80` on is encoded in two bytes or more, the second a continuation byte. -/
theorem utf8EncodeChar_of_ge {c : Char} (hc : 0x80 ≤ c.toNat) : ∃ b b₂ rest,
    String.utf8EncodeChar c = b :: b₂ :: rest ∧ 0x80 ≤ b₂.toNat ∧ b₂.toNat < 0xC0 := by
  have tail : ∀ x : UInt8,
      0x80 ≤ (x &&& 0x3f ||| 0x80).toNat ∧ (x &&& 0x3f ||| 0x80).toNat < 0xC0 := by
    intro x
    simp only [toNat_and_or]
    have k : ∀ n < 2 ^ 6, 128 ≤ n ||| 128 ∧ n ||| 128 < 192 := by decide
    exact k _ (Nat.and_lt_two_pow _ (by decide))
  simp only [String.utf8EncodeChar]
  split_ifs with h1 h2 h3
  · have : c.val.toNat ≤ 127 := UInt32.toNat_le_of_le (by decide) h1
    exact absurd hc (by simp only [Char.toNat]; omega)
  all_goals exact ⟨_, _, _, rfl, tail _⟩

/-- An ASCII character is its own one byte, and reads back from it. -/
theorem utf8EncodeChar_of_lt {c : Char} (hc : c.toNat < 0x80) :
    String.utf8EncodeChar c = [c.val.toUInt8] ∧ Char.ofNat c.val.toUInt8.toNat = c := by
  have h1 : c.val ≤ 0x7f := by
    rw [UInt32.le_def, BitVec.le_def]
    simpa [Char.toNat] using Nat.le_of_lt_succ hc
  refine ⟨by simp [String.utf8EncodeChar, h1], ?_⟩
  rw [toUInt8_toNat_of_le h1]
  exact Char.ofNat_toNat c

/-- Encodings are prefix-free: a string that starts with two characters' encodings starts with
the same bytes either way. -/
theorem utf8EncodeChar_append_inj {c u : Char} {x y : GoString}
    (h : String.utf8EncodeChar c ++ x = String.utf8EncodeChar u ++ y) :
    String.utf8EncodeChar c = String.utf8EncodeChar u ∧ x = y := by
  obtain ⟨b, r, hc, -, hw⟩ := utf8EncodeChar_cons c
  obtain ⟨b', r', hu, -, hw'⟩ := utf8EncodeChar_cons u
  rw [hc, hu, List.cons_append, List.cons_append, List.cons.injEq] at h
  obtain ⟨rfl, h⟩ := h
  obtain ⟨rfl, rfl⟩ := List.append_inj h (by omega)
  exact ⟨hc.trans hu.symm, rfl⟩

/-- A continuation byte right after a whole character: never valid UTF-8. -/
theorem not_valid_of_continuation (u : Char) {b : UInt8} (hb : 0x80 ≤ b.toNat ∧ b.toNat < 0xC0)
    (rest : GoString) : ¬ Valid (String.utf8EncodeChar u ++ b :: rest) := by
  rintro ⟨⟨cs⟩, h⟩
  obtain ⟨b₀, r₀, hu, -, -⟩ := utf8EncodeChar_cons u
  rcases cs with _ | ⟨c, cs⟩
  · simp [ofString, hu] at h
  rw [ofString_cons] at h
  obtain ⟨-, h⟩ := utf8EncodeChar_append_inj h
  rcases cs with _ | ⟨c', cs⟩
  · cases h
  rw [ofString_cons] at h
  obtain ⟨b', r', hc', hnot, -⟩ := utf8EncodeChar_cons c'
  rw [hc', List.cons_append, List.cons.injEq] at h
  exact hnot (h.1 ▸ hb)

end GoString

end Sypl
