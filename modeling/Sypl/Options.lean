import Sypl.Message

/-!
# Message options

`PrintWithOptions` runs its `OptionFunc`s on a new message, in order (`optionsfunc.go`). The
closures are written as data, `OptionFunc`, and run by `OptionFunc.apply` on the heap of field
maps, since `WithFields` stores the caller's map in the message and `WithField` writes into the
message's map.

* `WithField` guards against a `nil` map, but it then writes into its stale local `flds`. The
  loop panics exactly when a `WithField` meets a message whose fields are `nil`
  (`applyOptions_ok_iff`), which `WithFields(nil)` brings about
  (`printWithOptions_withFields_nil_withField`).
* `WithField` writes through the map a `WithFields` stored, which is the caller's map
  (`applyOptions_withFields_withField`).
* `mergeOptions` lets the options' routing replace the message's whenever it is nonempty
  (`mergeOptions_outputsNames`).
-/

namespace Sypl

/-- The closures of `optionsfunc.go`, each by its constructor and what it captured. -/
inductive OptionFunc where
  | withID (id : GoString)
  | withTags (tags : List GoString)
  | withFields (fields : Ref)
  | withField (key : GoString) (value : Any)
  | withFlag (f : Flag)
  | withOutputsNames (outputsNames : List GoString)
  | withProcessorsNames (processorsNames : List GoString)

namespace OptionFunc

/-- Running an option on the message and the heap of field maps. -/
def apply : OptionFunc → Heap × Message Ref → Except Panic (Heap × Message Ref)
  | withID id, (h, m) => .ok (h, { m with id := id })
  | withTags tags, (h, m) => .ok (h, m.addTags tags)
  | withFields fields, (h, m) => .ok (h, { m with fields := fields })
  | withField key value, (h, m) =>
    let flds := m.fields
    -- `if flds == nil { m.SetFields(make(fields.Fields)) }`
    let (h, m) := if flds = none then ((h.alloc .empty).1, { m with fields := (h.alloc .empty).2 })
      else (h, m)
    -- `flds[key] = value`, then `m.SetFields(flds)`
    (h.assign flds key value).map fun h => (h, { m with fields := flds })
  | withFlag f, (h, m) => .ok (h, m.setFlag f)
  | withOutputsNames outputsNames, (h, m) => .ok (h, { m with outputsNames := outputsNames })
  | withProcessorsNames processorsNames, (h, m) =>
    .ok (h, { m with processorsNames := processorsNames })

end OptionFunc

/-- The loop of `PrintWithOptions`: `for _, opt := range o { m = opt(m) }`. -/
def applyOptions : List OptionFunc → Heap × Message Ref → Except Panic (Heap × Message Ref)
  | [], s => .ok s
  | o :: os, s => (o.apply s).bind (applyOptions os)

/-- `PrintWithOptions(l, ct, o...)` up to `PrintMessage`: `message.New` allocates the message's
map, the options run, and the message is read as a value; or an option panics. -/
def printWithOptions (h : Heap) (id hash : GoString) (now : Nat) (l : Level) (ct : GoString)
    (os : List OptionFunc) : Except Panic (Heap × Message Fields) :=
  (applyOptions os ((h.alloc .empty).1, Message.new (h.alloc .empty).2 id hash now l ct)).map
    fun s => (s.1, s.2.deref s.1)

/-- Whether running `os` from fields `cur` reaches a `WithField` while the fields are `nil`. -/
def writesNilMap : List OptionFunc → Ref → Bool
  | [], _ => false
  | .withFields r :: os, _ => writesNilMap os r
  | .withField _ _ :: os, cur => cur.isNone || writesNilMap os cur
  | _ :: os, cur => writesNilMap os cur

/-! ## Panics of the option loop -/

theorem apply_withField_none (h : Heap) (m : Message Ref) (hm : m.fields = none) (k : GoString)
    (v : Any) : (OptionFunc.withField k v).apply (h, m) = .error .nilMapAssignment := by
  simp [OptionFunc.apply, hm, Heap.assign, Except.map]

theorem apply_withField_some (h : Heap) (m : Message Ref) {i : Nat} (hm : m.fields = some i)
    (k : GoString) (v : Any) :
    (OptionFunc.withField k v).apply (h, m) =
      .ok (⟨h.maps.set i ((h.read (some i)).insert k v)⟩, m) := by
  cases m
  subst hm
  simp [OptionFunc.apply, Heap.assign, Except.map]

/-- The loop ends without a panic exactly when no `WithField` meets `nil` fields. -/
theorem applyOptions_ok_iff (os : List OptionFunc) (h : Heap) (m : Message Ref) :
    (∃ s, applyOptions os (h, m) = .ok s) ↔ writesNilMap os m.fields = false := by
  induction os generalizing h m with
  | nil => simp [applyOptions, writesNilMap]
  | cons o os ih =>
    cases o with
    | withField k v =>
      rcases hm : m.fields with _ | i
      · simp [applyOptions, apply_withField_none h m hm, writesNilMap, Except.bind]
      · simp only [applyOptions, apply_withField_some h m hm, writesNilMap, Option.isNone_some,
          Bool.false_or]
        exact hm ▸ ih _ _
    | _ => exact ih _ _

/-- The panic is the nil-map assignment, whenever the loop panics. -/
theorem applyOptions_error (os : List OptionFunc) (h : Heap) (m : Message Ref) (e : Panic)
    (he : applyOptions os (h, m) = .error e) : e = .nilMapAssignment := by
  induction os generalizing h m with
  | nil => cases he
  | cons o os ih =>
    cases o with
    | withField k v =>
      rcases hm : m.fields with _ | i
      · simpa [applyOptions, apply_withField_none h m hm, Except.bind, eq_comm] using he
      · exact ih _ _ (by simpa [applyOptions, apply_withField_some h m hm, Except.bind] using he)
    | _ => exact ih _ _ he

/-- The options `WithFields(nil)` then `WithField(k, v)` panic, on every message. -/
theorem printWithOptions_withFields_nil_withField (h : Heap) (id hash : GoString) (now : Nat)
    (l : Level) (ct k : GoString) (v : Any) :
    printWithOptions h id hash now l ct [.withFields none, .withField k v] =
      .error .nilMapAssignment := by
  simp [printWithOptions, applyOptions, OptionFunc.apply, Heap.assign, Except.bind, Except.map]

/-- `WithField` after `WithFields(f)` writes into `f`, the caller's map. -/
theorem applyOptions_withFields_withField (h : Heap) (m : Message Ref) (i : Nat) (k : GoString)
    (v : Any) :
    applyOptions [.withFields (some i), .withField k v] (h, m) =
      .ok (⟨h.maps.set i ((h.read (some i)).insert k v)⟩, { m with fields := some i }) := by
  simp [applyOptions, OptionFunc.apply, Heap.assign, Except.bind, Except.map]

/-! ## Options merged into a message -/

/-- `options.Options`. -/
structure Options where
  fields : Fields
  flag : Flag
  outputsNames : List GoString
  processorsNames : List GoString
  tags : List GoString

/-- `options.New()`. -/
def Options.new : Options := ⟨some .empty, .none, [], [], []⟩

/-- `mergeOptions(m, o)`, on the message as a value. -/
def mergeOptions (m : Message Fields) (o : Options) : Message Fields :=
  let m := if o.fields.isSome then { m with fields := o.fields } else m
  let m := if o.flag ≠ .none then m.setFlag o.flag else m
  let m := if o.outputsNames.length > 0 then { m with outputsNames := o.outputsNames } else m
  let m := if o.processorsNames.length > 0 then { m with processorsNames := o.processorsNames }
    else m
  if o.tags.length > 0 then { m with tags := o.tags }.addTags o.tags else m

/-- The merged message's routing is the options' when they name outputs, else the message's. -/
theorem mergeOptions_outputsNames (m : Message Fields) (o : Options) :
    (mergeOptions m o).outputsNames = if o.outputsNames = [] then m.outputsNames
      else o.outputsNames := by
  simp [mergeOptions, apply_ite Message.outputsNames, Message.setFlag, Message.addTags,
    List.length_pos, ite_not]

end Sypl
