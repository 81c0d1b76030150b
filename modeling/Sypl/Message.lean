import Sypl.Level
import Sypl.Fields

/-!
# Messages

A `message.IMessage` is a pointer to a mutable record. The dispatcher hands each output its own
copy, so the model passes messages by value; the one part that stays shared is the map of
structured fields, a Go reference. `Message F` is generic in how it holds that map: as a value
(`Fields`, the dispatcher's and the formatters' view) or as a reference into the heap (`Ref`,
the view of the functional options, which write through it). `Message.deref` reads a message of
the heap as a value.
-/

namespace Sypl

/-- `fields.Fields` as a value: `nil`, or a map. -/
abbrev Fields := Option (GoMap Any)

/-- A reference read as a value. -/
def Heap.deref (h : Heap) : Ref → Fields
  | none => none
  | some i => some (h.read (some i))

@[simp] theorem Heap.deref_some (h : Heap) (i : Nat) : h.deref (some i) = some (h.read (some i)) :=
  rfl

/-- Modelled from the spec: `content.Content` (package `content` is not under `src/`), the
original text, fixed at creation, and the processed text that processors rewrite. -/
structure Content where
  original : GoString
  processed : GoString
  deriving DecidableEq, Repr

/-- The fields of `message.message` that the modelled functions read or write. `timestamp` is
the creation time in nanoseconds; `debugEnvVarRegexes` records the names `debug.New` was given. -/
structure Message (F : Type) where
  id : GoString
  contentBasedHashID : GoString
  level : Level
  content : Content
  fields : F
  tags : List GoString
  flag : Flag
  outputsNames : List GoString
  processorsNames : List GoString
  componentName : GoString
  outputName : GoString
  timestamp : Nat
  debugEnvVarRegexes : Option (GoString × GoString)
  deriving DecidableEq, Repr

namespace Message

variable {F : Type}

/-- The same message with its fields held another way. -/
def mapFields {G : Type} (f : F → G) (m : Message F) : Message G := { m with fields := f m.fields }

/-- A message of the heap, read as a value. -/
def deref (h : Heap) (m : Message Ref) : Message Fields := m.mapFields h.deref

/-- Modelled from the spec: `AddTags` (the message's tags are an ordered set): each new tag is
appended unless it is already there, so repeated merges do not accumulate duplicates. -/
def addTags (m : Message F) (tags : List GoString) : Message F :=
  { m with tags := tags.foldl (fun acc t => if t ∈ acc then acc else acc ++ [t]) m.tags }

/-- `SetFlag`. -/
def setFlag (m : Message F) (f : Flag) : Message F := { m with flag := f }

/-- `GetContent().SetProcessed`. -/
def setProcessed (m : Message F) (s : GoString) : Message F :=
  { m with content := { m.content with processed := s } }

/-- Modelled from the spec: `IsEmpty` (`message.go` is not under `src/`, only the interface that
declares it), the message has no content. The model reads the processed content, the one
`ChangeFirstCharCase` indexes right after the check. -/
def isEmpty (m : Message F) : Bool := m.content.processed.isEmpty

/-- Modelled from the spec: `message.New(l, ct)` (`message.go` is not under `src/`). The
identity is a random UUID and the timestamp the clock's, so both are arguments, as is the
content-based hash (`generateID`, a SHA-1 digest of the trimmed content). The content starts
processed as it was written, with no flag, no routing and empty fields. -/
def new (fields : F) (id hash : GoString) (now : Nat) (l : Level) (ct : GoString) : Message F where
  id := id
  contentBasedHashID := hash
  level := l
  content := ⟨ct, ct⟩
  fields := fields
  tags := []
  flag := .none
  outputsNames := []
  processorsNames := []
  componentName := []
  outputName := []
  timestamp := now
  debugEnvVarRegexes := none

@[simp] theorem setProcessed_processed (m : Message F) (s : GoString) :
    (m.setProcessed s).content.processed = s := rfl

@[simp] theorem mapFields_level {G : Type} (f : F → G) (m : Message F) :
    (m.mapFields f).level = m.level := rfl

@[simp] theorem mapFields_outputsNames {G : Type} (f : F → G) (m : Message F) :
    (m.mapFields f).outputsNames = m.outputsNames := rfl

@[simp] theorem mapFields_fields {G : Type} (f : F → G) (m : Message F) :
    (m.mapFields f).fields = f m.fields := rfl

@[simp] theorem addTags_level (m : Message F) (tags : List GoString) :
    (m.addTags tags).level = m.level := rfl

@[simp] theorem addTags_outputsNames (m : Message F) (tags : List GoString) :
    (m.addTags tags).outputsNames = m.outputsNames := rfl

@[simp] theorem addTags_fields (m : Message F) (tags : List GoString) :
    (m.addTags tags).fields = m.fields := rfl

@[simp] theorem addTags_content (m : Message F) (tags : List GoString) :
    (m.addTags tags).content = m.content := rfl

/-- A tag is in the merged set when it was in the message's tags or among the new ones. -/
theorem mem_addTags {m : Message F} {tags : List GoString} {t : GoString} :
    t ∈ (m.addTags tags).tags ↔ t ∈ m.tags ∨ t ∈ tags := by
  suffices ∀ acc : List GoString,
      t ∈ tags.foldl (fun acc t => if t ∈ acc then acc else acc ++ [t]) acc ↔ t ∈ acc ∨ t ∈ tags from
    this m.tags
  induction tags with
  | nil => simp
  | cons u tags ih =>
    intro acc
    rw [List.foldl_cons, ih, List.mem_cons]
    split_ifs with h
    · constructor
      · exact fun h' => h'.imp_right .inr
      · rintro (h' | rfl | h')
        exacts [.inl h', .inl h, .inr h']
    · simp only [List.mem_append, List.mem_singleton, or_assoc]

end Message

end Sypl
