import Sypl.Options

/-!
# The logger

The state of a `Sypl` logger, and the sequential parts of `process` (`sypl.go`): what the
goroutine of one message does before it fans out (`prepare`), and the writes `processOutputs`
starts (`processOutputs`). `Dispatch.lean` runs them concurrently.

* With global fields, `process` copies them and then the message's fields into a fresh map: the
  result reads the message's fields first and the global ones for the other keys, and no map
  allocated before changes, over any number of messages (`mergeGlobalFields_spec`). On values
  this is `mergeFields`, the merge `prepare` does.
* `PrintMessagesToOutputsWithOptions` pins each message to its output, and then `mergeOptions`
  replaces the pin by the options' outputs whenever they name some
  (`printMessagesToOutputsWithOptions_outputsNames`).
-/

namespace Sypl

/-- Modelled from the spec: `status.Status` (package `status` is not under `src/`). -/
inductive Status where
  | enabled
  | disabled
  deriving DecidableEq, Repr

/-- The part of an `output.IOutput` that `process` reads: its name and its status. -/
structure Output where
  name : GoString
  status : Status
  deriving DecidableEq, Repr

/-- The `Sypl` logger. A logger made by `New` has non-`nil` fields and tags; the zero value has
`nil` ones. -/
structure Logger where
  name : GoString
  defaultIoWriterLevel : Level
  fields : Fields
  outputs : List Output
  status : Status
  tags : Option (List GoString)

/-- The environment variables `process` reads: `SYPL_FILTER` and `SYPL_LEVEL`. -/
structure Env where
  filter : GoString
  level : GoString

/-- `MessageToOutput`. -/
structure MessageToOutput where
  content : GoString
  level : Level
  outputName : GoString

namespace Logger

/-- `GetOutputsNames`. -/
def getOutputsNames (sypl : Logger) : List GoString := sypl.outputs.map (·.name)

/-- `New(name, outputs...)`. -/
def new (name : GoString) (outputs : List Output) : Logger :=
  ⟨name, Level.none, some .empty, outputs, .enabled, some []⟩

/-- `AddOutputs`. -/
def addOutputs (sypl : Logger) (outputs : List Output) : Logger :=
  { sypl with outputs := sypl.outputs ++ outputs }

end Logger

/-! ## Outputs by name

`GetOutput` and `SetOutputs` match outputs by `strings.EqualFold` of their names. An output is an
`output.IOutput`, a reference, so the two take the outputs as values of any type read through
`GetName`: what they return is the output itself, not one with the same fields.

* `SetOutputs` keeps the registered outputs in their order, and each position ends with the last
  given output whose name folds like the registered one's (`setOutputs_eq_map`). Each given output
  is compared with what the earlier ones left at a position; that is the same comparison because
  `EqualFold` is an equivalence (`equalFold_replacement`). `setOutputs` takes the given outputs as
  they were at the call, which is what Go's loop reads when its variadic slice shares no array
  with the registered outputs; `Loggers.lean` reads the slice from the arrays.
* The first output of a name's class (`firstOfClass`), which `GetOutput` returns, changes with one
  more output only for the names of that output's class (`firstOfClass_concat`).
-/

section ByName

variable {α : Type} (getName : α → GoString) (fold : Char → Char)

namespace Logger

/-- `GetOutput(name)` on the logger's outputs: the first whose name `strings.EqualFold`s `name`,
or `nil`. -/
def getOutput (outputs : List α) (name : GoString) : Option α :=
  outputs.find? fun o => GoString.equalFold fold (getName o) name

/-- `SetOutputs(outputs...)` on the logger's outputs, with the given outputs as they were at the
call: for each given output in turn, the range loop puts it at every position whose output's name
`strings.EqualFold`s its name. -/
def setOutputs (registered outputs : List α) : List α :=
  outputs.foldl (fun registered output => registered.map fun o =>
    if GoString.equalFold fold (getName o) (getName output) then output else o) registered

/-- What `SetOutputs` leaves at the position of `o`: the last given output whose name folds like
`o`'s, or `o`. -/
def replacement (outputs : List α) (o : α) : α :=
  ((outputs.filter fun u => GoString.equalFold fold (getName o) (getName u)).getLast?).getD o

/-- A position keeps its output, or takes a given output whose name folds like it. -/
theorem replacement_cases (outputs : List α) (o : α) :
    replacement getName fold outputs o = o ∨ (replacement getName fold outputs o ∈ outputs ∧
      GoString.equalFold fold (getName o) (getName (replacement getName fold outputs o))) := by
  unfold replacement
  rcases h : (outputs.filter fun u => GoString.equalFold fold (getName o) (getName u)).getLast?
    with _ | u
  · exact .inl rfl
  · obtain ⟨ys, hys⟩ := List.getLast?_eq_some_iff.1 h
    rw [Option.getD_some]
    exact .inr (List.mem_filter.1 (hys ▸ List.mem_append_right ys (List.mem_singleton_self u) :
      u ∈ outputs.filter _))

theorem equalFold_replacement (outputs : List α) (o : α) :
    GoString.equalFold fold (getName o) (getName (replacement getName fold outputs o)) := by
  rcases replacement_cases getName fold outputs o with h | h
  · rw [h]
    exact GoString.equalFold_refl fold _
  · exact h.2

theorem replacement_append_singleton (outputs : List α) (u o : α) :
    replacement getName fold (outputs ++ [u]) o =
      if GoString.equalFold fold (getName o) (getName u) then u
      else replacement getName fold outputs o := by
  unfold replacement
  rw [List.filter_append, List.getLast?_append, List.filter_singleton]
  cases GoString.equalFold fold (getName o) (getName u) <;> rfl

/-- One more given output is stored where the replacement so far folds like it. -/
theorem replacement_concat (outputs : List α) (u o : α) :
    replacement getName fold (outputs ++ [u]) o =
      if GoString.equalFold fold (getName (replacement getName fold outputs o)) (getName u) then u
      else replacement getName fold outputs o := by
  rw [replacement_append_singleton,
    ← GoString.equalFold_congr fold (equalFold_replacement getName fold outputs o)]

/-- The loop of `SetOutputs`, output after output, is one pass that puts at each position its
replacement. -/
theorem setOutputs_eq_map (registered outputs : List α) :
    setOutputs getName fold registered outputs = registered.map (replacement getName fold outputs) := by
  induction outputs using List.reverseRecOn with
  | nil => exact (List.map_id registered).symm
  | append_singleton us u ih =>
    simp only [setOutputs, List.foldl_append, List.foldl_cons, List.foldl_nil] at ih ⊢
    rw [ih, List.map_map]
    exact List.map_congr_left fun o _ => (replacement_concat getName fold us u o).symm

/-- After `SetOutputs`, `GetOutput` finds a given output by its name when it is the last of its
name's class and some registered output has a name of that class. -/
theorem getOutput_setOutputs {registered outputs : List α} {u : α}
    (hlast : (outputs.filter fun u' => GoString.equalFold fold (getName u) (getName u')).getLast? =
      some u)
    (hmatch : ∃ o ∈ registered, GoString.equalFold fold (getName o) (getName u)) :
    getOutput getName fold (setOutputs getName fold registered outputs) (getName u) = some u := by
  have hcomp : ((fun o => GoString.equalFold fold (getName o) (getName u)) ∘
      replacement getName fold outputs) = fun o => GoString.equalFold fold (getName o) (getName u) :=
    funext fun o => (GoString.equalFold_congr fold (equalFold_replacement getName fold outputs o) _).symm
  rw [setOutputs_eq_map, getOutput, List.find?_map, hcomp]
  obtain ⟨o, ho⟩ := Option.isSome_iff_exists.1 (List.find?_isSome.2 hmatch)
  have hclass : (fun u' => GoString.equalFold fold (getName o) (getName u')) =
      fun u' => GoString.equalFold fold (getName u) (getName u') :=
    have hou : GoString.equalFold fold (getName o) (getName u) :=
      List.find?_some (p := fun x => GoString.equalFold fold (getName x) (getName u)) ho
    funext fun u' => GoString.equalFold_congr fold hou (getName u')
  rw [ho, Option.map_some', replacement, hclass, hlast]
  rfl

/-- `SetOutputs` leaves a list of the same length and order as the registered outputs, with at
each position the last given output whose name equals the registered one's ignoring case, or the
registered output when none does; it adds no given output that matches no registered name. Then
`GetOutput(u.GetName())` returns `u` for every given `u` that is the last of its case-insensitive
class and matched a registered output. -/
theorem setOutputs_spec (registered outputs : List α) :
    setOutputs getName fold registered outputs = registered.map (fun o =>
      ((outputs.filter fun u => GoString.equalFold fold (getName o) (getName u)).getLast?).getD o) ∧
    (∀ x ∈ setOutputs getName fold registered outputs, x ∈ registered ∨
      x ∈ outputs ∧ ∃ o ∈ registered, GoString.equalFold fold (getName o) (getName x)) ∧
    ∀ u, (outputs.filter fun u' => GoString.equalFold fold (getName u) (getName u')).getLast? =
        some u →
      (∃ o ∈ registered, GoString.equalFold fold (getName o) (getName u)) →
      getOutput getName fold (setOutputs getName fold registered outputs) (getName u) = some u := by
  refine ⟨setOutputs_eq_map getName fold registered outputs, fun x hx => ?_,
    fun u hlast hmatch => getOutput_setOutputs getName fold hlast hmatch⟩
  rw [setOutputs_eq_map] at hx
  obtain ⟨o, ho, rfl⟩ := List.mem_map.1 hx
  rcases replacement_cases getName fold outputs o with h | h
  · exact .inl (h.symm ▸ ho)
  · exact .inr ⟨h.1, o, ho, h.2⟩

/-- No two outputs have names equal ignoring case: the spec's outputs are name-unique, and
lookups ignore case. -/
def NamesUnique (outputs : List α) : Prop :=
  outputs.Pairwise fun a b => GoString.equalFold fold (getName a) (getName b) = false

instance (outputs : List α) : Decidable (NamesUnique getName fold outputs) :=
  inferInstanceAs (Decidable (outputs.Pairwise _))

/-- On outputs with unique names, `GetOutput` finds each by its name. -/
theorem getOutput_of_namesUnique {outputs : List α} (h : NamesUnique getName fold outputs) {x : α}
    (hx : x ∈ outputs) : getOutput getName fold outputs (getName x) = some x := by
  induction outputs with
  | nil => cases hx
  | cons a rest ih =>
    rw [NamesUnique, List.pairwise_cons] at h
    rw [getOutput, List.find?_cons]
    rcases List.mem_cons.1 hx with rfl | hx
    · rw [GoString.equalFold_refl]
    · rw [h.1 x hx]
      exact ih h.2 hx

/-- Replacing two positions compares their names as before. -/
theorem equalFold_replacement_replacement (outputs : List α) (a b : α) :
    GoString.equalFold fold (getName (replacement getName fold outputs a))
      (getName (replacement getName fold outputs b)) =
        GoString.equalFold fold (getName a) (getName b) :=
  GoString.equalFold_congr₂ fold (equalFold_replacement getName fold outputs a)
    (equalFold_replacement getName fold outputs b)

/-- `SetOutputs` keeps the registered names pairwise different ignoring case, and then `GetOutput`
returns each registered output by its name. -/
theorem setOutputs_namesUnique {registered : List α} (h : NamesUnique getName fold registered)
    (outputs : List α) :
    NamesUnique getName fold (setOutputs getName fold registered outputs) ∧
      ∀ x ∈ setOutputs getName fold registered outputs,
        getOutput getName fold (setOutputs getName fold registered outputs) (getName x) = some x := by
  have hu : NamesUnique getName fold (setOutputs getName fold registered outputs) := by
    rw [setOutputs_eq_map, NamesUnique, List.pairwise_map]
    exact h.imp fun hab => (equalFold_replacement_replacement getName fold outputs _ _).trans hab
  exact ⟨hu, fun x hx => getOutput_of_namesUnique getName fold hu hx⟩

/-- The first of `outputs` whose name folds like `o`'s, which `GetOutput(o.GetName())` returns,
or `o` when there is none. -/
def firstOfClass (outputs : List α) (o : α) : α := (getOutput getName fold outputs (getName o)).getD o

theorem equalFold_firstOfClass (outputs : List α) (o : α) :
    GoString.equalFold fold (getName o) (getName (firstOfClass getName fold outputs o)) := by
  unfold firstOfClass
  cases h : getOutput getName fold outputs (getName o) with
  | none => exact GoString.equalFold_refl fold _
  | some x =>
    rw [Option.getD_some, GoString.equalFold_comm]
    exact List.find?_some (p := fun x => GoString.equalFold fold (getName x) (getName o)) h

/-- One more output changes the first of a class only for the class of that output, and only
when the class had no output before. -/
theorem firstOfClass_concat (outputs : List α) (u o : α) :
    firstOfClass getName fold (outputs ++ [u]) o =
      if GoString.equalFold fold (getName (firstOfClass getName fold outputs o))
        (getName (firstOfClass getName fold outputs u))
      then firstOfClass getName fold outputs u else firstOfClass getName fold outputs o := by
  rw [GoString.equalFold_congr₂ fold (equalFold_firstOfClass getName fold outputs o)
    (equalFold_firstOfClass getName fold outputs u)]
  unfold firstOfClass getOutput
  rw [List.find?_append, List.find?_singleton]
  cases hou : GoString.equalFold fold (getName o) (getName u)
  · rw [GoString.equalFold_comm, hou]
    simp
  · have hclass : (fun x => GoString.equalFold fold (getName x) (getName o)) =
        fun x => GoString.equalFold fold (getName x) (getName u) :=
      funext fun x => by rw [GoString.equalFold_comm fold (getName x), GoString.equalFold_congr fold hou,
        GoString.equalFold_comm]
    rw [hclass, GoString.equalFold_comm fold (getName u), hou]
    cases outputs.find? fun x => GoString.equalFold fold (getName x) (getName u) <;> simp

end Logger

end ByName

theorem Logger.setOutputs_namesUnique_two :
    Logger.NamesUnique id id [GoString.ofString "a", GoString.ofString "B"] ∧
      Logger.NamesUnique id id (Logger.setOutputs id id ["a", "B"] ["A"]) ∧
      ∀ x ∈ Logger.setOutputs id id ["a", "B"] ["A"],
        Logger.getOutput id id (Logger.setOutputs id id ["a", "B"] ["A"]) x = some x :=
  have h : Logger.NamesUnique id id [GoString.ofString "a", GoString.ofString "B"] := by decide
  ⟨h, Logger.setOutputs_namesUnique id id h ["A"]⟩

/-! ## Global fields -/

/-- Lines 614–619 of `process` on values: with global fields, a fresh map holding a copy of them
and then of the message's fields. -/
def mergeFields (global msg : Fields) : Fields :=
  match global with
  | none => msg
  | some g => some ((msg.getD .empty).copyInto (g.copyInto .empty))

/-- Lines 614–619 of `process` on the heap: `fields.Fields{}`, then `fields.Copy` of the global
fields and of the message's fields into it. -/
def mergeGlobalFields (h : Heap) (global msg : Ref) : Except Panic (Heap × Ref) :=
  if global = none then .ok (h, msg)
  else (copy (h.alloc .empty).1 global (h.alloc .empty).2).bind fun s => copy s.1 msg s.2

/-- The merge of a batch of messages, one after the other. -/
def mergeGlobalFieldsEach (h : Heap) (global : Ref) : List Ref → Except Panic Heap
  | [] => .ok h
  | msg :: msgs =>
    (mergeGlobalFields h global msg).bind fun s => mergeGlobalFieldsEach s.1 global msgs

theorem Heap.valid_of_le {h h' : Heap} (hl : h.maps.length ≤ h'.maps.length) {r : Ref}
    (hr : h.Valid r) : h'.Valid r := by
  cases r <;> simp_all [Heap.Valid]; omega

theorem Heap.deref_eq_getD (h : Heap) (r : Ref) : (h.deref r).getD .empty = h.read r := by
  cases r <;> rfl

theorem GoMap.mem_keys_copyInto {α : Type} {src dst : GoMap α} {k : GoString}
    (hk : k ∈ (src.copyInto dst).keys) : k ∈ src.keys ∨ k ∈ dst.keys := by
  simp only [GoMap.mem_keys_iff, GoMap.get?_copyInto] at hk ⊢
  rcases hs : src.get? k with _ | v <;> simp_all

/-- One merge: a fresh map, holding the merge of the two maps as values, and every map that
was allocated before is left as it was. -/
theorem mergeGlobalFields_one (h : Heap) {g : Nat} (hg : g < h.maps.length) {f : Ref}
    (hf : h.Valid f) : ∃ h', mergeGlobalFields h (some g) f = .ok (h', some h.maps.length) ∧
      h'.maps.length = h.maps.length + 1 ∧ (∀ r, h.Valid r → h'.read r = h.read r) ∧
      h'.deref (some h.maps.length) = mergeFields (h.deref (some g)) (h.deref f) := by
  set n := h.maps.length
  have hn : n < (h.alloc .empty).1.maps.length := by simp [Heap.alloc, n]
  have hold : ∀ r, h.Valid r → (h.alloc .empty).1.read r = h.read r := by
    rintro (_ | i) hi
    · rfl
    · exact h.read_alloc_of_lt _ hi
  obtain ⟨h₁, hc₁, hl₁, hr₁⟩ := read_copy (h.alloc .empty).1 (some g) hn
  obtain ⟨h₂, hc₂, hl₂, hr₂⟩ := read_copy h₁ f (hl₁ ▸ hn)
  have hfn : f ≠ some n := by rintro rfl; exact absurd hf (by simp [Heap.Valid, n])
  have hempty : (h.alloc .empty).1.read (some n) = .empty := h.read_alloc_self _
  refine ⟨h₂, ?_, by simp [hl₂, hl₁, Heap.alloc, n], fun r hr => ?_, ?_⟩
  · rw [mergeGlobalFields, if_neg (Option.some_ne_none g)]
    show (copy (h.alloc .empty).1 (some g) (some n)).bind _ = _
    rw [hc₁]
    exact hc₂
  · have hrn : r ≠ some n := by rintro rfl; exact absurd hr (by simp [Heap.Valid, n])
    rw [hr₂, if_neg hrn, hr₁, if_neg hrn, hold r hr]
  · show some (h₂.read (some n)) =
      some (((h.deref f).getD .empty).copyInto ((h.read (some g)).copyInto .empty))
    rw [Heap.deref_eq_getD, hr₂, if_pos rfl, hr₁ f, hr₁ (some n), if_neg hfn, if_pos rfl,
      hold f hf, hold (some g) hg, hempty]

/-- Merging a batch of messages, one after the other, leaves every map allocated before. -/
theorem mergeGlobalFieldsEach_frame {g : Nat} :
    ∀ (h : Heap) (fs : List Ref), g < h.maps.length → (∀ r ∈ fs, h.Valid r) →
      ∃ h', mergeGlobalFieldsEach h (some g) fs = .ok h' ∧ ∀ r, h.Valid r → h'.read r = h.read r
  | h, [], _, _ => ⟨h, rfl, fun _ _ => rfl⟩
  | h, f :: fs, hg, hfs => by
    obtain ⟨h₁, he, hl, hr, -⟩ := mergeGlobalFields_one h hg (hfs f (List.mem_cons_self _ _))
    have hle : h.maps.length ≤ h₁.maps.length := by omega
    obtain ⟨h₂, he₂, hr₂⟩ := mergeGlobalFieldsEach_frame (g := g) h₁ fs (by omega)
      (fun r hr' => Heap.valid_of_le hle (hfs r (List.mem_cons_of_mem _ hr')))
    refine ⟨h₂, ?_, fun r hv => (hr₂ r (Heap.valid_of_le hle hv)).trans (hr r hv)⟩
    rw [mergeGlobalFieldsEach, he]
    exact he₂

/-- With global fields `g`, the fields `process` gives a message whose fields are `f` (`nil` or
not) are a fresh map that reads `f` first and `g` for the keys `f` lacks, with no other keys.
No map allocated before changes, `g` and `f` among them, and over a batch of any number of
messages the map `GetFields` returns stays as it was. -/
theorem mergeGlobalFields_spec (h : Heap) {g : Nat} (hg : g < h.maps.length) {f : Ref}
    (hf : h.Valid f) :
    (∃ h', mergeGlobalFields h (some g) f = .ok (h', some h.maps.length) ∧
      ¬ h.Valid (some h.maps.length) ∧ (∀ r, h.Valid r → h'.read r = h.read r) ∧
      (∀ k, (h'.read (some h.maps.length)).get? k =
        ((h.read f).get? k).or ((h.read (some g)).get? k)) ∧
      ∀ k ∈ (h'.read (some h.maps.length)).keys,
        k ∈ (h.read f).keys ∨ k ∈ (h.read (some g)).keys) ∧
    ∀ fs : List Ref, (∀ r ∈ fs, h.Valid r) →
      ∃ h', mergeGlobalFieldsEach h (some g) fs = .ok h' ∧ h'.read (some g) = h.read (some g) := by
  obtain ⟨h', he, -, hr, hv⟩ := mergeGlobalFields_one h hg hf
  have hM : h'.read (some h.maps.length) =
      (h.read f).copyInto ((h.read (some g)).copyInto .empty) := by
    simpa only [Heap.deref_some, mergeFields, Heap.deref_eq_getD, Option.some.injEq] using hv
  refine ⟨⟨h', he, by simp [Heap.Valid], hr, fun k => ?_, fun k hk => ?_⟩, fun fs hfs => ?_⟩
  · simp [hM, GoMap.get?_copyInto]
  · rw [hM] at hk
    exact (GoMap.mem_keys_copyInto hk).imp_right fun hk =>
      (GoMap.mem_keys_copyInto hk).resolve_right fun hk => by cases hk
  · obtain ⟨h'', he'', hr''⟩ := mergeGlobalFieldsEach_frame h fs hg hfs
    exact ⟨h'', he'', hr'' (some g) hg⟩

/-- The merge at overlapping keys: the global fields `{g: 1}` and the message's fields
`{m: 2, g: 3}` give a map that reads `3` at `g` and `2` at `m`. -/
theorem mergeGlobalFields_spec_overlap :
    let h : Heap := ⟨[⟨[("g", .int 1)], by decide⟩, ⟨[("m", .int 2), ("g", .int 3)], by decide⟩]⟩
    (0 < h.maps.length ∧ h.Valid (some 1)) ∧
    ((∃ h', mergeGlobalFields h (some 0) (some 1) = .ok (h', some h.maps.length) ∧
        ¬ h.Valid (some h.maps.length) ∧ (∀ r, h.Valid r → h'.read r = h.read r) ∧
        (∀ k, (h'.read (some h.maps.length)).get? k =
          ((h.read (some 1)).get? k).or ((h.read (some 0)).get? k)) ∧
        ∀ k ∈ (h'.read (some h.maps.length)).keys,
          k ∈ (h.read (some 1)).keys ∨ k ∈ (h.read (some 0)).keys) ∧
      ∀ fs : List Ref, (∀ r ∈ fs, h.Valid r) →
        ∃ h', mergeGlobalFieldsEach h (some 0) fs = .ok h' ∧ h'.read (some 0) = h.read (some 0)) ∧
    ((h.read (some 1)).get? "g").or ((h.read (some 0)).get? "g") = some (.int 3) ∧
    ((h.read (some 1)).get? "m").or ((h.read (some 0)).get? "m") = some (.int 2) :=
  ⟨⟨by decide, (by decide : 1 < 2)⟩,
    mergeGlobalFields_spec _ (g := 0) (by decide) (f := some 1) (by decide : 1 < 2), by decide, by decide⟩

/-! ## One message's goroutine -/

namespace Logger

/-- The goroutine of one message in `process`, up to its call of `processOutputs`: `none` when it
returns early (no content and `SkipAndMute`, or the component filter), else the message as it is
fanned out: routed, with the global fields and tags merged in. -/
def prepare (sypl : Logger) (env : Env) (m : Message Fields) : Option (Message Fields) :=
  if m.content.original = [] ∧ m.flag = .skipAndMute then none
  else if env.filter ≠ [] ∧ GoString.contains env.filter sypl.name = false then none
  else
    let outputsNames := if m.outputsNames.length > 0 then m.outputsNames else sypl.getOutputsNames
    let m := { m with outputsNames := outputsNames }
    let m := if sypl.fields.isSome then { m with fields := mergeFields sypl.fields m.fields } else m
    some (match sypl.tags with
      | none => m
      | some tags => m.addTags (tags ++ m.tags))

/-- The copy of `m` that `processOutputs` hands output `o`: stamped with the logger's and the
output's names, and with `debug.New` of them when `SYPL_LEVEL` is set. -/
def stamp (sypl : Logger) (env : Env) (m : Message Fields) (o : Output) : Message Fields :=
  let msg := { m with componentName := sypl.name, outputName := o.name }
  if env.level ≠ [] then { msg with debugEnvVarRegexes := some (msg.componentName, msg.outputName) }
  else msg

/-- `processOutputs(m, outputsNames)`: the writes it starts, each by the position of its output
in `sypl.outputs` and the copy of the message the output is handed. -/
def processOutputs (sypl : Logger) (env : Env) (m : Message Fields) (outputsNames : GoString) :
    List (Nat × Message Fields) :=
  (sypl.outputs.enum.filter fun (_, o) =>
    o.status = .enabled ∧ GoString.contains outputsNames o.name = true).map fun (i, o) =>
      (i, sypl.stamp env m o)

/-- The writes of the goroutine of `m`: `processOutputs` with the joined routing, or none when
the message is dropped. -/
def plan (sypl : Logger) (env : Env) (m : Message Fields) : List (Nat × Message Fields) :=
  match sypl.prepare env m with
  | none => []
  | some m' => sypl.processOutputs env m' (GoString.join m'.outputsNames ",")

/-- The messages `PrintMessagesToOutputs` hands to `process`; `new` is `message.New`, with its
random identity and its clock. -/
def printMessagesToOutputs (new : Level → GoString → Message Fields)
    (mtos : List MessageToOutput) : List (Message Fields) :=
  mtos.map fun mto => { new mto.level mto.content with outputsNames := [mto.outputName] }

/-- The messages `PrintMessagesToOutputsWithOptions` hands to `process`. -/
def printMessagesToOutputsWithOptions (new : Level → GoString → Message Fields) (o : Options)
    (mtos : List MessageToOutput) : List (Message Fields) :=
  mtos.map fun mto =>
    mergeOptions { new mto.level mto.content with outputsNames := [mto.outputName] } o

theorem prepare_eq_none_iff {sypl : Logger} {env : Env} {m : Message Fields} :
    sypl.prepare env m = none ↔ (m.content.original = [] ∧ m.flag = .skipAndMute) ∨
      (env.filter ≠ [] ∧ GoString.contains env.filter sypl.name = false) := by
  unfold prepare
  split_ifs with h₁ h₂ <;> simp_all

/-- `process` keeps a message exactly when it is not both empty and flagged `SkipAndMute`, and
the component filter is unset or names the logger. -/
theorem isSome_prepare_iff {sypl : Logger} {env : Env} {m : Message Fields} :
    (sypl.prepare env m).isSome ↔ ¬ (m.content.original = [] ∧ m.flag = .skipAndMute) ∧
      (env.filter = [] ∨ GoString.contains env.filter sypl.name = true) := by
  rw [← Option.ne_none_iff_isSome, ne_eq, prepare_eq_none_iff, not_or]
  exact and_congr_right' (by rw [not_and_or, ne_eq, not_not, Bool.not_eq_false])

/-- A message `prepare` keeps is the message with its routing resolved, and its fields and tags
merged. -/
theorem prepare_eq_some {sypl : Logger} {env : Env} {m m' : Message Fields}
    (h : sypl.prepare env m = some m') : ∃ fields tags, m' = { m with
      outputsNames := if m.outputsNames.length > 0 then m.outputsNames else sypl.getOutputsNames,
      fields := fields, tags := tags } := by
  unfold prepare at h
  split at h
  · cases h
  split at h
  · cases h
  obtain rfl := Option.some.inj h
  split <;> split_ifs <;> exact ⟨_, _, rfl⟩

theorem prepare_level {sypl : Logger} {env : Env} {m m' : Message Fields}
    (h : sypl.prepare env m = some m') : m'.level = m.level := by
  obtain ⟨_, _, rfl⟩ := prepare_eq_some h
  rfl

theorem prepare_outputsNames {sypl : Logger} {env : Env} {m m' : Message Fields}
    (h : sypl.prepare env m = some m') :
    m'.outputsNames = if m.outputsNames = [] then sypl.getOutputsNames else m.outputsNames := by
  obtain ⟨_, _, rfl⟩ := prepare_eq_some h
  simp [List.length_pos, ite_not]

/-- The tags of a message `prepare` keeps: its own, and the logger's global tags. -/
theorem mem_prepare_tags {sypl : Logger} {env : Env} {m m' : Message Fields}
    (h : sypl.prepare env m = some m') {ts : List GoString} (hts : sypl.tags = some ts)
    {t : GoString} : t ∈ m'.tags ↔ t ∈ m.tags ∨ t ∈ ts := by
  unfold prepare at h
  split at h
  · cases h
  split at h
  · cases h
  obtain rfl := Option.some.inj h
  simp only [hts, Message.mem_addTags, List.mem_append, apply_ite Message.tags]
  split_ifs <;> tauto

@[simp] theorem stamp_outputName (sypl : Logger) (env : Env) (m : Message Fields) (o : Output) :
    (sypl.stamp env m o).outputName = o.name := by
  unfold stamp
  split <;> rfl

/-- A write of `processOutputs` goes to an enabled output whose name occurs in the joined
routing, with the copy stamped for it; and every such output gets one. -/
theorem mem_processOutputs {sypl : Logger} {env : Env} {m : Message Fields} {names : GoString}
    {i : Nat} {c : Message Fields} :
    (i, c) ∈ sypl.processOutputs env m names ↔ ∃ o, sypl.outputs[i]? = some o ∧
      o.status = .enabled ∧ GoString.contains names o.name = true ∧ c = sypl.stamp env m o := by
  simp only [processOutputs, List.mem_map, List.mem_filter, Prod.mk.injEq, Prod.exists,
    List.mem_enum_iff_getElem?, decide_eq_true_eq]
  constructor
  · rintro ⟨j, o, ⟨ho, he, hc⟩, rfl, rfl⟩
    exact ⟨o, ho, he, hc, rfl⟩
  · rintro ⟨o, ho, he, hc, rfl⟩
    exact ⟨i, o, ⟨ho, he, hc⟩, rfl, rfl⟩

/-- `processOutputs` starts at most one write per output. -/
theorem nodup_processOutputs (sypl : Logger) (env : Env) (m : Message Fields) (names : GoString) :
    ((sypl.processOutputs env m names).map Prod.fst).Nodup := by
  rw [processOutputs, List.map_map]
  refine List.Nodup.sublist ((List.filter_sublist _).map _) ?_
  rw [show (Prod.fst ∘ fun p : Nat × Output => (p.1, sypl.stamp env m p.2)) = Prod.fst from rfl,
    List.enum_map_fst]
  exact List.nodup_range _

/-! ## Selection by name -/

/-- The writes `processOutputs` would start if it selected the enabled outputs whose name is an
element of the routing, as the spec reads it ("appears among the resolved target names"). -/
def processOutputsByName (sypl : Logger) (env : Env) (m : Message Fields)
    (names : List GoString) : List (Nat × Message Fields) :=
  (sypl.outputs.enum.filter fun (_, o) => o.status = .enabled ∧ o.name ∈ names).map fun (i, o) =>
    (i, sypl.stamp env m o)

/-- `processOutputs` selects its outputs by name when no output's name is empty, holds a comma,
or occurs inside a routing name other than itself. -/
theorem processOutputs_eq_byName (sypl : Logger) (env : Env) (m : Message Fields)
    (names : List GoString) (h : ∀ o ∈ sypl.outputs, o.name ≠ [] ∧ (44 : UInt8) ∉ o.name ∧
      ∀ n ∈ names, o.name <:+: n → n = o.name) :
    sypl.processOutputs env m (GoString.join names ",") =
      sypl.processOutputsByName env m names := by
  unfold processOutputs processOutputsByName
  congr 1
  refine List.filter_congr fun (_, o) hio => ?_
  obtain ⟨hne, hb, hn⟩ := h o (List.snd_mem_of_mem_enum hio)
  have hj : GoString.join names "," = GoString.join names [44] := rfl
  simp only [hj, GoString.contains_join_iff hne hb hn]

theorem processOutputs_eq_byName_buffers :
    (∀ o ∈ (Logger.new "app" [⟨"buffer 1", .enabled⟩, ⟨"buffer 2", .enabled⟩]).outputs,
      o.name ≠ [] ∧ (44 : UInt8) ∉ o.name ∧
        ∀ n ∈ [GoString.ofString "buffer 1"], o.name <:+: n → n = o.name) ∧
    (Logger.new "app" [⟨"buffer 1", .enabled⟩, ⟨"buffer 2", .enabled⟩]).processOutputs ⟨[], []⟩
        (Message.new none "" "" 0 .info "x") (GoString.join ["buffer 1"] ",") =
      (Logger.new "app" [⟨"buffer 1", .enabled⟩, ⟨"buffer 2", .enabled⟩]).processOutputsByName
        ⟨[], []⟩ (Message.new none "" "" 0 .info "x") ["buffer 1"] := by
  have h : ∀ o ∈ (Logger.new "app" [⟨"buffer 1", .enabled⟩, ⟨"buffer 2", .enabled⟩]).outputs,
      o.name ≠ [] ∧ (44 : UInt8) ∉ o.name ∧
        ∀ n ∈ [GoString.ofString "buffer 1"], o.name <:+: n → n = o.name := by
    decide
  exact ⟨h, processOutputs_eq_byName _ _ _ _ h⟩

/-- The component filter selects by name when the logger's name is nonempty, holds no comma and
occurs inside no entry of the filter other than itself: a message is then dropped exactly when
it is empty and flagged `SkipAndMute`, or the name is not an entry of the filter split at `,`. -/
theorem prepare_eq_none_iff_of_name (sypl : Logger) (env : Env) (m : Message Fields)
    (hn : sypl.name ≠ []) (hb : (44 : UInt8) ∉ sypl.name)
    (he : ∀ e ∈ env.filter.splitOn 44, sypl.name <:+: e → e = sypl.name) :
    sypl.prepare env m = none ↔ (m.content.original = [] ∧ m.flag = .skipAndMute) ∨
      (env.filter ≠ [] ∧ sypl.name ∉ env.filter.splitOn 44) := by
  rw [prepare_eq_none_iff, ← GoString.contains_join_iff hn hb he, GoString.join_splitOn,
    Bool.not_eq_true]

theorem prepare_eq_none_iff_of_name_svc :
    (GoString.ofString "svc" ≠ [] ∧ (44 : UInt8) ∉ GoString.ofString "svc" ∧
      ∀ e ∈ (GoString.ofString "svc,pv").splitOn 44, GoString.ofString "svc" <:+: e →
        e = GoString.ofString "svc") ∧
    ((Logger.new "svc" []).prepare ⟨"svc,pv", []⟩ (Message.new none "" "" 0 .info "x") = none ↔
      ((Message.new none "" "" 0 .info "x" : Message Fields).content.original = [] ∧
        (Message.new none "" "" 0 .info "x" : Message Fields).flag = .skipAndMute) ∨
      (GoString.ofString "svc,pv" ≠ [] ∧
        GoString.ofString "svc" ∉ (GoString.ofString "svc,pv").splitOn 44)) := by
  have h : GoString.ofString "svc" ≠ [] ∧ (44 : UInt8) ∉ GoString.ofString "svc" ∧
      ∀ e ∈ (GoString.ofString "svc,pv").splitOn 44, GoString.ofString "svc" <:+: e →
        e = GoString.ofString "svc" := by
    decide
  exact ⟨h, prepare_eq_none_iff_of_name (Logger.new "svc" []) ⟨"svc,pv", []⟩ _ h.1 h.2.1 h.2.2⟩

end Logger

/-- The pin of each message of `PrintMessagesToOutputsWithOptions` is replaced by the options'
outputs whenever they name some. -/
theorem printMessagesToOutputsWithOptions_outputsNames (new : Level → GoString → Message Fields)
    (o : Options) (mtos : List MessageToOutput) :
    (Logger.printMessagesToOutputsWithOptions new o mtos).map (·.outputsNames) =
      mtos.map fun mto => if o.outputsNames = [] then [mto.outputName] else o.outputsNames := by
  simp [Logger.printMessagesToOutputsWithOptions, mergeOptions_outputsNames]

/-- With options that name the output `"B"`, the message of a tuple pinned to `"A"` is routed to
`"B"`, whatever `message.New` gives. -/
theorem printMessagesToOutputsWithOptions_repins (new : Level → GoString → Message Fields) :
    (Logger.printMessagesToOutputsWithOptions new { Options.new with outputsNames := ["B"] }
      [⟨"x", .info, "A"⟩]).map (·.outputsNames) = [[GoString.ofString "B"]] := by
  rw [printMessagesToOutputsWithOptions_outputsNames]
  simp

end Sypl
