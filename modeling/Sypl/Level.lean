import Sypl.Strings

/-!
# Levels

`level.Level` is a Go `int`. The seven named levels are `0, …, 6`; `String` prints any other
value as `"Unknown"`, and `LevelsToString` joins the names of a list of levels with `","`.

The processors that act on a list of levels test
`strings.Contains(LevelsToString(ls), l.String())`. For a level in range that test is exactly
membership (`contains_levelsToString_iff`), for lists of any length and with levels out of range
among them: no name holds the separator, and a name occurs inside the name of a level only when
the two levels are equal (`eq_of_infix_string`).
-/

namespace Sypl

/-- `level.Level`, a Go `int`. -/
structure Level where
  toInt : Int
  deriving DecidableEq, Repr

namespace Level

def none : Level := ⟨0⟩
def fatal : Level := ⟨1⟩
def error : Level := ⟨2⟩
def info : Level := ⟨3⟩
def warn : Level := ⟨4⟩
def debug : Level := ⟨5⟩
def trace : Level := ⟨6⟩

instance : LE Level := ⟨fun a b => a.toInt ≤ b.toInt⟩
instance : LT Level := ⟨fun a b => a.toInt < b.toInt⟩

instance (a b : Level) : Decidable (a ≤ b) := inferInstanceAs (Decidable (a.toInt ≤ b.toInt))
instance (a b : Level) : Decidable (a < b) := inferInstanceAs (Decidable (a.toInt < b.toInt))

@[simp] theorem le_iff {a b : Level} : a ≤ b ↔ a.toInt ≤ b.toInt := Iff.rfl
@[simp] theorem lt_iff {a b : Level} : a < b ↔ a.toInt < b.toInt := Iff.rfl

/-- `level.names`. -/
def names : List GoString := ["none", "fatal", "error", "info", "warn", "debug", "trace"]

/-- `Level.String`. -/
def string (l : Level) : GoString :=
  if l < none ∨ l > trace then "Unknown" else names.getD l.toInt.toNat []

/-- `level.LevelsToString`. -/
def levelsToString (levels : List Level) : GoString := GoString.join (levels.map string) ","

/-! ## Names of levels -/

/-- A level in range is one of the seven named ones, printed by its entry of `names`. -/
theorem exists_of_le_trace {l : Level} (hl : none ≤ l ∧ l ≤ trace) :
    ∃ i < 7, l = ⟨(i : Nat)⟩ ∧ l.string = names.getD i [] := by
  obtain ⟨v⟩ := l
  simp only [le_iff, none, trace] at hl
  refine ⟨v.toNat, by omega, by simp only [mk.injEq]; omega, ?_⟩
  simp only [string, lt_iff, gt_iff_lt, none, trace]
  rw [if_neg (by omega)]

theorem string_eq_unknown {l : Level} (hl : ¬ (none ≤ l ∧ l ≤ trace)) : l.string = "Unknown" := by
  simp only [le_iff, none, trace] at hl
  simp only [string, lt_iff, gt_iff_lt, none, trace]
  rw [if_pos (by omega)]

theorem string_ne_nil (l : Level) : l.string ≠ [] := by
  by_cases hl : none ≤ l ∧ l ≤ trace
  · obtain ⟨i, hi, -, h⟩ := exists_of_le_trace hl
    have key : ∀ i < 7, names.getD i [] ≠ [] := by decide
    exact h ▸ key i hi
  · rw [string_eq_unknown hl]
    decide

/-- No level name holds the byte of `","`. -/
theorem comma_not_mem_string (l : Level) : (44 : UInt8) ∉ l.string := by
  by_cases hl : none ≤ l ∧ l ≤ trace
  · obtain ⟨i, hi, -, h⟩ := exists_of_le_trace hl
    have key : ∀ i < 7, (44 : UInt8) ∉ names.getD i [] := by decide
    exact h ▸ key i hi
  · rw [string_eq_unknown hl]
    decide

/-- The name of a level in range occurs in the name of a level only when the levels are equal. -/
theorem eq_of_infix_string {l l' : Level} (hl : none ≤ l ∧ l ≤ trace)
    (h : l.string <:+: l'.string) : l' = l := by
  obtain ⟨i, hi, rfl, hs⟩ := exists_of_le_trace hl
  rw [hs, ← GoString.contains_iff] at h
  by_cases hl' : none ≤ l' ∧ l' ≤ trace
  · obtain ⟨j, hj, rfl, hs'⟩ := exists_of_le_trace hl'
    rw [hs'] at h
    have key : ∀ i < 7, ∀ j < 7, GoString.contains (names.getD j []) (names.getD i []) = true →
        j = i := by decide
    rw [key i hi j hj h]
  · rw [string_eq_unknown hl'] at h
    have key : ∀ i < 7, GoString.contains "Unknown" (names.getD i []) = false := by decide
    rw [key i hi] at h
    cases h

/-- `strings.Contains(LevelsToString(ls), l.String())` is membership of `l` in `ls`, for every
level `l` in range and every list `ls`. -/
theorem contains_levelsToString_iff {l : Level} (hl : none ≤ l ∧ l ≤ trace) (ls : List Level) :
    GoString.contains (levelsToString ls) l.string = true ↔ l ∈ ls := by
  have hx : ∀ x ∈ ls.map string, l.string <:+: x → x = l.string := by
    rintro _ hx hlx
    obtain ⟨l', -, rfl⟩ := List.mem_map.1 hx
    rw [eq_of_infix_string hl hlx]
  refine (GoString.contains_join_iff (b := 44) (string_ne_nil l) (comma_not_mem_string l) hx).trans
    ⟨fun h => ?_, List.mem_map_of_mem _⟩
  obtain ⟨l', hl', he⟩ := List.mem_map.1 h
  have hinf : l.string <:+: l'.string := he ▸ List.infix_refl _
  rwa [← eq_of_infix_string hl hinf]

/-! ## Parsing levels -/

/-- `LevelsNames()`: each name through `strings.ToLower`, with `lower` for `unicode.ToLower`. -/
def levelsNames (lower : Char → Char) : List GoString := names.map (GoString.toLower lower)

/-- An error `fmt.Errorf("%w: …", ErrInvalidLevel, …)`: it wraps `ErrInvalidLevel`, whose text
is not in the repository, and `detail` is the text that follows it. -/
structure InvalidLevelError where
  detail : GoString
  deriving DecidableEq, Repr

/-- `FromString(level)`: `fold` is the Unicode case folding `strings.EqualFold` reads, and
`lower` the `unicode.ToLower` of `LevelsNames`. -/
def fromString (fold lower : Char → Char) (level : GoString) : Except InvalidLevelError Level :=
  if level = [] then
    .error ⟨": No level specified. Available: " ++ GoString.join (levelsNames lower) ", "⟩
  else
    match names.findIdx? (GoString.equalFold fold level) with
    | .some i => .ok ⟨i⟩
    | .none => .error ⟨": " ++ level ++ ". Available: " ++ GoString.join (levelsNames lower) ", "⟩

/-- How a call that may stop the process ends: with its value, or in `log.Fatalf`, which prints
`shared.ErrorPrefix` (not in the repository) and `detail`, and exits. -/
inductive OrFatal (α : Type) where
  | value (a : α)
  | fatal (detail : GoString)
  deriving DecidableEq, Repr

/-- `MustFromString(level)`, with its own copy of the loop of `FromString`. -/
def mustFromString (fold lower : Char → Char) (level : GoString) : OrFatal Level :=
  if level = [] then
    .fatal (" No level specified. Available: " ++ GoString.join (levelsNames lower) ", ")
  else
    match names.findIdx? (GoString.equalFold fold level) with
    | .some i => .value ⟨i⟩
    | .none => .fatal (" Invalid level: " ++ level ++ ". Available: " ++ GoString.join names ", ")

section Parse

variable (fold lower : Char → Char)

/-- The names are ASCII and already lower case, so `LevelsNames` is `names` for every table. -/
theorem levelsNames_eq : levelsNames lower = names := by
  have key : ∀ n ∈ names, GoString.IsASCII n ∧
      n.map (fun b => if 65 ≤ b ∧ b ≤ 90 then b + 32 else b) = n := by decide
  refine (List.map_congr_left fun n hn => ?_).trans (List.map_id names)
  rw [GoString.toLower_of_ascii (key n hn).1, (key n hn).2]
  rfl

/-- The entry of a level in range, and its name. -/
theorem lt_seven {i : Nat} (hi : i < 7) :
    (none ≤ ⟨i⟩ ∧ (⟨i⟩ : Level) ≤ trace) ∧ (⟨i⟩ : Level).string = names.getD i [] := by
  have hl : none ≤ ⟨i⟩ ∧ (⟨i⟩ : Level) ≤ trace := by simp only [le_iff, none, trace]; omega
  obtain ⟨j, -, hj, hs⟩ := exists_of_le_trace hl
  obtain rfl : i = j := by simp only [mk.injEq] at hj; omega
  exact ⟨hl, hs⟩

/-- Two names fold alike only when they are the same name, whatever the Unicode tables: they are
ASCII, where folding is fixed. -/
theorem eq_of_equalFold_names {i j : Nat} (hi : i < 7) (hj : j < 7)
    (h : GoString.equalFold fold (names.getD i []) (names.getD j [])) : i = j := by
  have ascii : ∀ i < 7, GoString.IsASCII (names.getD i []) := by decide
  have key : ∀ i < 7, ∀ j < 7,
      GoString.equalFold id (names.getD i []) (names.getD j []) = true → i = j := by decide
  rw [GoString.equalFold_of_ascii fold (ascii i hi) (ascii j hj) id] at h
  exact key i hi j hj h

theorem getD_names {i : Nat} (hi : i < names.length) : names.getD i [] = names[i] := by
  simp [List.getD_eq_getElem?_getD, hi]

/-- The loop over `names` stops at the one name that `level` folds like. -/
theorem findIdx?_names_eq_some {s : GoString} {i : Nat} :
    names.findIdx? (GoString.equalFold fold s) = some i ↔
      i < 7 ∧ GoString.equalFold fold s (names.getD i []) := by
  rw [List.findIdx?_eq_some_iff_getElem]
  constructor
  · rintro ⟨hi, hs, -⟩
    exact ⟨hi, by rwa [getD_names hi]⟩
  · rintro ⟨hi, hs⟩
    rw [getD_names hi] at hs
    refine ⟨hi, hs, fun j hji hj => absurd (eq_of_equalFold_names fold (hji.trans hi) hi ?_) hji.ne⟩
    rwa [getD_names (hji.trans hi), getD_names hi, ← GoString.equalFold_congr fold hj]

/-- `FromString(s)` returns `(l, nil)` exactly when `l` is in range and `s` folds like its name. -/
theorem fromString_eq_ok_iff {s : GoString} {l : Level} :
    fromString fold lower s = .ok l ↔ (none ≤ l ∧ l ≤ trace) ∧ GoString.equalFold fold s l.string := by
  unfold fromString
  split_ifs with hs
  · subst hs
    simp only [GoString.equalFold_nil_iff, string_ne_nil, and_false, iff_false]
  constructor
  · intro h
    split at h
    · rename_i i hi
      cases h
      obtain ⟨hi7, hfold⟩ := (findIdx?_names_eq_some fold).1 hi
      exact ⟨(lt_seven hi7).1, (lt_seven hi7).2 ▸ hfold⟩
    · cases h
  · rintro ⟨hl, hfold⟩
    obtain ⟨j, hj, rfl, hs'⟩ := exists_of_le_trace hl
    rw [(findIdx?_names_eq_some fold).2 ⟨hj, hs' ▸ hfold⟩]

theorem fromString_eq_error_iff {s : GoString} :
    (∃ e, fromString fold lower s = .error e) ↔
      ¬ ∃ l, (none ≤ l ∧ l ≤ trace) ∧ GoString.equalFold fold s l.string := by
  simp only [← fromString_eq_ok_iff fold lower]
  rcases fromString fold lower s with e | l <;> simp

/-- `MustFromString` agrees with `FromString`: the same level, or `log.Fatalf` where
`FromString` returns an error. -/
theorem mustFromString_eq (s : GoString) :
    mustFromString fold lower s = match fromString fold lower s with
      | .ok l => .value l
      | .error _ => .fatal (if s = [] then
          " No level specified. Available: " ++ GoString.join (levelsNames lower) ", "
        else " Invalid level: " ++ s ++ ". Available: " ++ GoString.join names ", ") := by
  unfold mustFromString fromString
  split_ifs <;> split <;> simp_all

/-- `"Unknown"`, the name of every level out of range, folds like no name in range. -/
theorem not_equalFold_unknown (l : Level) (hl : none ≤ l ∧ l ≤ trace) :
    GoString.equalFold fold "Unknown" l.string = false := by
  obtain ⟨j, hj, -, hs⟩ := exists_of_le_trace hl
  have ascii : ∀ i < 7, GoString.IsASCII (names.getD i []) := by decide
  have key : ∀ i < 7, GoString.equalFold id "Unknown" (names.getD i []) = false := by decide
  rw [hs, GoString.equalFold_of_ascii fold (by decide) (ascii j hj) id, key j hj]

/-- `FromString(s)` returns `(l, nil)` exactly when `s` folds like the name of `l`. So it reads
back the name of every level in range, and returns an `ErrInvalidLevel` error on every other
string, `""` and `"Unknown"` among them. `MustFromString` returns the same level, and ends the
process where `FromString` fails. -/
theorem fromString_spec :
    (∀ s l, fromString fold lower s = .ok l ↔
      (none ≤ l ∧ l ≤ trace) ∧ GoString.equalFold fold s l.string) ∧
    (∀ l, none ≤ l ∧ l ≤ trace → fromString fold lower l.string = .ok l) ∧
    (∀ s, (¬ ∃ l, (none ≤ l ∧ l ≤ trace) ∧ GoString.equalFold fold s l.string) →
      ∃ e, fromString fold lower s = .error e) ∧
    (∃ e, fromString fold lower [] = .error e) ∧
    (∃ e, fromString fold lower "Unknown" = .error e) ∧
    (∀ s l, fromString fold lower s = .ok l → mustFromString fold lower s = .value l) ∧
    (∀ s e, fromString fold lower s = .error e → ∃ d, mustFromString fold lower s = .fatal d) := by
  refine ⟨fun s l => fromString_eq_ok_iff fold lower, fun l hl => ?_,
    fun s => (fromString_eq_error_iff fold lower).2, ⟨_, if_pos rfl⟩, ?_,
    fun s l h => by rw [mustFromString_eq, h], fun s e h => by rw [mustFromString_eq, h]; exact ⟨_, rfl⟩⟩
  · exact (fromString_eq_ok_iff fold lower).2 ⟨hl, GoString.equalFold_refl fold _⟩
  · refine (fromString_eq_error_iff fold lower).2 ?_
    rintro ⟨l, hl, h⟩
    rw [not_equalFold_unknown fold l hl] at h
    cases h

end Parse

end Level

end Sypl
