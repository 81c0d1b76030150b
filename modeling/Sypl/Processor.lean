import Sypl.Message

/-!
# Built-in processors

A processor rewrites one output's copy of a message, its processed content or its flag
(`processor/builtin.go`). What a processor reads from outside the message, the process id, Go's
time formatting and the Unicode case mappings, is a `Runtime`.

* The four processors that act on a list of levels share one test, `listsLevel`, and for every
  level in range it is membership of the level in the list (`listsLevel_iff`), whatever the list
  holds. So `muteBasedOnLevel` and `forceBasedOnLevel` set their flag exactly at the listed
  levels, and `printOnlyAtLevel` and `prefixBasedOnMaskExceptForLevels` act exactly at the
  others (`levelProcessors_eq`).
* `changeFirstCharCase` converts the first *byte* of the content as a character
  (`string(byte)`): right for an ASCII first character (`changeFirstCharCase_of_ascii`), and it
  leaves invalid UTF-8 after every first character of two bytes or more
  (`changeFirstCharCase_not_valid`).
-/

namespace Sypl

/-- What the processors read from outside the message: `os.Getpid()`, `time.Time.Format` of a
layout and a time, and `unicode.ToUpper` and `unicode.ToLower`, the Go library's case tables. -/
structure Runtime where
  pid : Nat
  formatTime : GoString → Nat → GoString
  toUpper : Char → Char
  toLower : Char → Char

namespace Processor

variable {F : Type} (rt : Runtime)

/-- `processor.Casing`, a Go string type. -/
abbrev Casing := GoString

def lowercase : Casing := "lowercase"
def uppercase : Casing := "uppercase"

/-- `strings.ToUpper` or `strings.ToLower` of a valid string: `strings.Map` of the case mapping
over its characters. -/
def mapChars (f : Char → Char) (s : String) : GoString := GoString.ofString ⟨s.data.map f⟩

/-- `generateDefaultPrefix`: `fmt.Sprintf("%s [%d] [%s] [%s] ", timestamp, os.Getpid(),
component, level)`. -/
def generateDefaultPrefix (timestamp component : GoString) (level : Level) : GoString :=
  timestamp ++ " [" ++ GoString.ofString (toString rt.pid) ++ "] [" ++ component ++ "] [" ++
    level.string ++ "] "

/-- `ChangeFirstCharCase`: `string(processed[0])` is the character whose code is the first byte,
and `processed[1:]` the bytes after it. -/
def changeFirstCharCase (casing : Casing) (m : Message F) : Message F :=
  if m.isEmpty then m
  else
    let firstChar : String := ⟨[Char.ofNat (m.content.processed.headD 0).toNat]⟩
    let contentWithoutFirstChar := m.content.processed.drop 1
    if casing = uppercase then
      m.setProcessed (mapChars rt.toUpper firstChar ++ contentWithoutFirstChar)
    else if casing = lowercase then
      m.setProcessed (mapChars rt.toLower firstChar ++ contentWithoutFirstChar)
    else m

/-- The test of the level-based processors:
`strings.Contains(level.LevelsToString(levels), m.GetLevel().String())`. -/
def listsLevel (levels : List Level) (m : Message F) : Bool :=
  GoString.contains (Level.levelsToString levels) m.level.string

/-- `ForceBasedOnLevel`. -/
def forceBasedOnLevel (levels : List Level) (m : Message F) : Message F :=
  if listsLevel levels m then m.setFlag .force else m

/-- `Flagger`. -/
def flagger (f : Flag) (m : Message F) : Message F := m.setFlag f

/-- `MuteBasedOnLevel`. -/
def muteBasedOnLevel (levels : List Level) (m : Message F) : Message F :=
  if listsLevel levels m then m.setFlag .mute else m

/-- `PrefixBasedOnMask`. -/
def prefixBasedOnMask (timestampFormat : GoString) (m : Message F) : Message F :=
  m.setProcessed (generateDefaultPrefix rt (rt.formatTime timestampFormat m.timestamp)
    m.componentName m.level ++ m.content.processed)

/-- `PrefixBasedOnMaskExceptForLevels`. -/
def prefixBasedOnMaskExceptForLevels (timestampFormat : GoString) (levels : List Level)
    (m : Message F) : Message F :=
  if !listsLevel levels m then
    m.setProcessed (generateDefaultPrefix rt (rt.formatTime timestampFormat m.timestamp)
      m.componentName m.level ++ m.content.processed)
  else m

/-- `Prefixer`. -/
def prefixer (pfx : GoString) (m : Message F) : Message F :=
  m.setProcessed (pfx ++ m.content.processed)

/-- `PrintOnlyAtLevel`. -/
def printOnlyAtLevel (levels : List Level) (m : Message F) : Message F :=
  if !listsLevel levels m then m.setFlag .mute else m

/-- `PrintOnlyIfTagged`. -/
def printOnlyIfTagged (tag : GoString) (m : Message F) : Message F :=
  if tag ∉ m.tags then m.setFlag .mute else m

/-- `PrintOnlyIfNotTaggedWith`: mutes once for each listed tag the message has. -/
def printOnlyIfNotTaggedWith (tags : List GoString) (m : Message F) : Message F :=
  tags.foldl (fun m tag => if tag ∈ m.tags then m.setFlag .mute else m) m

/-- `Suffixer`. -/
def suffixer (suffix : GoString) (m : Message F) : Message F :=
  m.setProcessed (m.content.processed ++ suffix)

/-- `Tagger`. -/
def tagger (tags : List GoString) (m : Message F) : Message F := m.addTags tags

/-! ## Processors on a list of levels -/

/-- For a message at a level in range, the shared test is membership of its level. -/
theorem listsLevel_iff {levels : List Level} {m : Message F}
    (hl : Level.none ≤ m.level ∧ m.level ≤ Level.trace) :
    listsLevel levels m = true ↔ m.level ∈ levels :=
  Level.contains_levelsToString_iff hl levels

/-- For a message at a level in range and any list of levels, in range or not: the flag and
prefix processors act exactly as membership of the level says, and otherwise leave the message
as it was. -/
theorem levelProcessors_eq (timestampFormat : GoString) (levels : List Level) (m : Message F)
    (hl : Level.none ≤ m.level ∧ m.level ≤ Level.trace) :
    muteBasedOnLevel levels m = (if m.level ∈ levels then m.setFlag .mute else m) ∧
    forceBasedOnLevel levels m = (if m.level ∈ levels then m.setFlag .force else m) ∧
    printOnlyAtLevel levels m = (if m.level ∈ levels then m else m.setFlag .mute) ∧
    prefixBasedOnMaskExceptForLevels rt timestampFormat levels m =
      (if m.level ∈ levels then m
      else m.setProcessed (generateDefaultPrefix rt (rt.formatTime timestampFormat m.timestamp)
        m.componentName m.level ++ m.content.processed)) := by
  have h : listsLevel levels m = decide (m.level ∈ levels) := by
    rw [Bool.eq_iff_iff, listsLevel_iff hl, decide_eq_true_iff]
  simp only [muteBasedOnLevel, forceBasedOnLevel, printOnlyAtLevel,
    prefixBasedOnMaskExceptForLevels, h]
  by_cases hm : m.level ∈ levels <;> simp [hm]

theorem levelProcessors_eq_info :
    let m : Message Fields := Message.new none "" "" 0 Level.info "x"
    let rt : Runtime := ⟨0, fun _ _ => [], id, id⟩
    (Level.none ≤ m.level ∧ m.level ≤ Level.trace) ∧
      muteBasedOnLevel [Level.info, ⟨42⟩] m = m.setFlag .mute ∧
      forceBasedOnLevel [Level.info, ⟨42⟩] m = m.setFlag .force ∧
      printOnlyAtLevel [Level.info, ⟨42⟩] m = m ∧
      prefixBasedOnMaskExceptForLevels rt "" [Level.info, ⟨42⟩] m = m :=
  ⟨by decide, by
    simpa using levelProcessors_eq ⟨0, fun _ _ => [], id, id⟩ "" [Level.info, ⟨42⟩]
      (Message.new (none : Fields) "" "" 0 Level.info "x") (by decide)⟩

/-! ## Changing the case of the first character -/

theorem mapChars_singleton (f : Char → Char) (c : Char) :
    mapChars f ⟨[c]⟩ = String.utf8EncodeChar (f c) := by
  simp [mapChars, GoString.ofString]

/-- `changeFirstCharCase` on content whose bytes start with `b`: the character of code `b`,
converted, before the bytes after `b`. -/
theorem changeFirstCharCase_cons (casing : Casing) (m : Message F) (b : UInt8) (rest : GoString)
    (hm : m.content.processed = b :: rest) :
    (changeFirstCharCase rt casing m).content.processed =
      if casing = uppercase then String.utf8EncodeChar (rt.toUpper (Char.ofNat b.toNat)) ++ rest
      else if casing = lowercase then
        String.utf8EncodeChar (rt.toLower (Char.ofNat b.toNat)) ++ rest
      else b :: rest := by
  simp only [changeFirstCharCase, Message.isEmpty, hm, List.isEmpty_cons, Bool.false_eq_true,
    if_false, List.headD_cons, List.drop_succ_cons, List.drop_zero, mapChars_singleton]
  split_ifs <;> simp [hm]

/-- For content whose first character is ASCII, the first character is converted and the rest
is left as it was. -/
theorem changeFirstCharCase_of_ascii {c : Char} (hc : c.toNat < 0x80) (t : List Char)
    (m : Message F) (hm : m.content.processed = GoString.ofString ⟨c :: t⟩) :
    (changeFirstCharCase rt uppercase m).content.processed =
        GoString.ofString ⟨rt.toUpper c :: t⟩ ∧
      (changeFirstCharCase rt lowercase m).content.processed =
        GoString.ofString ⟨rt.toLower c :: t⟩ := by
  obtain ⟨henc, hback⟩ := GoString.utf8EncodeChar_of_lt hc
  rw [GoString.ofString_cons, henc, List.singleton_append] at hm
  have hne : uppercase ≠ lowercase := by decide
  rw [changeFirstCharCase_cons rt _ m _ _ hm, changeFirstCharCase_cons rt _ m _ _ hm, hback,
    GoString.ofString_cons, GoString.ofString_cons]
  simp [hne.symm]

/-- For content whose first character takes two bytes or more, the result is not valid UTF-8,
whatever the case tables: the byte after the converted character is a continuation byte. -/
theorem changeFirstCharCase_not_valid (casing : Casing)
    (hcasing : casing = uppercase ∨ casing = lowercase) {c : Char} (hc : 0x80 ≤ c.toNat)
    (t : List Char) (m : Message F) (hm : m.content.processed = GoString.ofString ⟨c :: t⟩) :
    ¬ GoString.Valid (changeFirstCharCase rt casing m).content.processed := by
  obtain ⟨b, b₂, rest, henc, hb₂⟩ := GoString.utf8EncodeChar_of_ge hc
  rw [GoString.ofString_cons, henc, List.cons_append] at hm
  rw [changeFirstCharCase_cons rt casing m _ _ hm]
  have hne : uppercase ≠ lowercase := by decide
  rcases hcasing with rfl | rfl
  · simpa using GoString.not_valid_of_continuation _ hb₂ _
  · simpa [hne.symm] using GoString.not_valid_of_continuation _ hb₂ _

/-- At content `"élan"`, whatever the case tables: the result is not the converted `'é'` before
`"lan"`, and it is not valid UTF-8. -/
theorem changeFirstCharCase_elan (m : Message F) :
    (changeFirstCharCase rt uppercase (m.setProcessed "élan")).content.processed ≠
        GoString.ofString ⟨rt.toUpper 'é' :: "lan".data⟩ ∧
      ¬ GoString.Valid
        (changeFirstCharCase rt uppercase (m.setProcessed "élan")).content.processed := by
  have h := changeFirstCharCase_not_valid rt uppercase (.inl rfl) (c := 'é') (by decide)
    "lan".data (m.setProcessed "élan") rfl
  exact ⟨fun he => h ⟨_, he.symm⟩, h⟩

end Processor

end Sypl
