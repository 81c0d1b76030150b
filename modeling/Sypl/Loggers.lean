import Sypl.Logger
import Sypl.Processor
import Sypl.Slice

/-!
# The loggers of a program

`Logger.lean` takes a logger as a value. In Go a logger is a `*Sypl` whose tags and outputs are
slices, and `sypl.New(name)` makes a child that gets copies of both headers (`sypl.go`, `New`):
parent and child share two backing arrays. The model keeps a program's loggers by pointer with
the arrays behind their slices, and reads each logger back as the value `process` takes (`view`).

`SetTags` and `AddOutputs` are one operation on two fields, `sypl.f = append(sypl.f, xs...)`
(`appendTo`), and their lemmas are proved once for any field.

* The logger that appends reads back its elements followed by the new ones (`read_appendTo_self`).
* Two loggers with one header, such as a parent and the child it just made, both append right
  after its elements: when both appends fit in the spare capacity, the first logger reads what
  the second one wrote (`read_appendTo_appendTo`). So after `SetTags` on a parent and then on its
  child, the parent's tags end with the child's (`tags_child_setTags_setTags`), and after
  `AddOutputs` the parent writes to the child's output (`outputs_child_addOutputs_addOutputs`).
  `process` on the parent then tags its messages with the child's tag (`prepare_tags_child`) and
  hands them to the child's output (`processOutputs_child`).
* `New` and `SetOutputs` take a variadic slice (`Args`): a call that lists its outputs gets a new
  array, and `f(xs...)` passes the header of `xs` (`callWith`). `New` keeps that header as the
  logger's outputs.
* `SetOutputs` stores into the array in place, and its outer loop reads each element of its slice
  when it reaches it. When the slice lies in another array, it is `Logger.setOutputs` of the
  slice's elements on the outputs of every logger that starts where it starts in that array
  (`outputs_setOutputs`, `setOutputs_apart_spec`): a parent and the child it made see each other's
  `SetOutputs` (`outputs_child_setOutputs`), so do two loggers that `New` made from one slice
  (`outputs_new_spread_setOutputs`), until an `AddOutputs` that does not fit moves one of them to
  a new array (`outputs_child_addOutputs_setOutputs`). `l.SetOutputs(l.GetOutputs()...)` reads
  what it stored: each output ends as the first of its class, not the last
  (`outputs_setOutputs_self`, `setOutputs_own_outputs_case`).
* `NewDefault` appends the console's processor to the caller's slice, and `StdErr` then appends
  its own to the same header: with spare capacity in the caller's slice, the slice handed to
  `Console` ends with the processor of `StdErr` (`newDefaultProcessors_console`). What `output.New`
  and `SetFormatter` do with it is not under `src/`.
-/

namespace Sypl

/-- The nil `output.IOutput`, the zero value that `append` leaves past a slice's length; no slice
reads it. -/
instance : Inhabited Output := ⟨⟨[], .enabled⟩⟩

namespace Loggers

/-- A `*Sypl` object: the logger's scalar fields, and the headers of its two slices. The map of
its global fields is a reference that a child shares, but no function of the package writes into
it, so it is kept as a value. -/
structure Object where
  name : GoString
  defaultIoWriterLevel : Level
  fields : Fields
  outputs : Slice
  status : Status
  tags : Slice

/-- The loggers of a program, by pointer, and the arrays behind their slices. -/
structure State (α : Type) where
  outputArrays : Arrays α
  tagArrays : Arrays GoString
  loggers : List Object

/-- The variadic argument `outputs ...output.IOutput` of `New` and `SetOutputs` as the caller
writes it: listed, `f(o₁, …, oₙ)`, for which Go makes a new array, or spread, `f(xs...)`, which
passes the header of the caller's slice `xs`, such as the one `GetOutputs` returns. -/
inductive Args (α : Type) where
  | list (outputs : List α)
  | spread (s : Slice)

variable {α β : Type}

/-- A slice field of a logger: its header in the object, and the arrays of its elements. -/
structure Field (α β : Type) where
  arrays : State α → Arrays β
  setArrays : State α → Arrays β → State α
  header : Object → Slice
  setHeader : Object → Slice → Object

/-- A field writes its own arrays and header and nothing else. -/
structure Field.Lawful (f : Field α β) : Prop where
  arrays_setArrays : ∀ st a, f.arrays (f.setArrays st a) = a
  loggers_setArrays : ∀ st a, (f.setArrays st a).loggers = st.loggers
  arrays_loggers : ∀ st l, f.arrays { st with loggers := l } = f.arrays st
  header_setHeader : ∀ o s, f.header (f.setHeader o s) = s

/-- `tags []string`. -/
def tagsField : Field α GoString :=
  ⟨State.tagArrays, fun st a => { st with tagArrays := a }, Object.tags, fun o s => { o with tags := s }⟩

/-- `outputs []output.IOutput`. -/
def outputsField : Field α α :=
  ⟨State.outputArrays, fun st a => { st with outputArrays := a }, Object.outputs,
    fun o s => { o with outputs := s }⟩

theorem tagsField_lawful : (tagsField : Field α GoString).Lawful :=
  ⟨fun _ _ => rfl, fun _ _ => rfl, fun _ _ => rfl, fun _ _ => rfl⟩

theorem outputsField_lawful : (outputsField : Field α α).Lawful :=
  ⟨fun _ _ => rfl, fun _ _ => rfl, fun _ _ => rfl, fun _ _ => rfl⟩

section StoreOutputs

variable [Inhabited α] (getName : α → GoString) (fold : Char → Char)

/-- One iteration of the outer loop of `SetOutputs` over its variadic slice `args`: `output` is
`args[j]` when the loop reaches it, and the inner range loop over `s` stores it at every index
whose output's name `strings.EqualFold`s its name. -/
def storeOutput (s args : Slice) (arrays : Arrays α) (j : Nat) : Arrays α :=
  let output := (Slice.read arrays args).getD j default
  Slice.storeWhere (fun o => GoString.equalFold fold (getName o) (getName output)) output arrays s

/-- The loops of `SetOutputs` over the outputs `s`, with the variadic slice `args`. Like every
range loop over a slice, the outer one evaluates `args` once and reads each element when it
reaches it, so it sees what the inner loop stored into an array they share. -/
def storeOutputs (arrays : Arrays α) (s args : Slice) : Arrays α :=
  (List.range args.len).foldl (storeOutput getName fold s args) arrays

variable {arrays : Arrays α} {s t args : Slice}

theorem valid_foldl_storeOutput (hs : Slice.Valid arrays s) (k : Nat) :
    ∀ t, Slice.Valid arrays t →
      Slice.Valid ((List.range k).foldl (storeOutput getName fold s args) arrays) t := by
  induction k with
  | zero => exact fun _ ht => ht
  | succ k ih => exact fun t ht => Slice.foldl_range_succ .. ▸ (ih s hs).storeWhere _ _ (ih t ht)

theorem valid_storeOutputs (hs : Slice.Valid arrays s) (ht : Slice.Valid arrays t) :
    Slice.Valid (storeOutputs getName fold arrays s args) t :=
  valid_foldl_storeOutput getName fold hs _ t ht

theorem read_foldl_storeOutput_of_ne (hs : Slice.Valid arrays s) (ht : t.array ≠ s.array) (k : Nat) :
    Slice.read ((List.range k).foldl (storeOutput getName fold s args) arrays) t = Slice.read arrays t := by
  induction k with
  | zero => rfl
  | succ k ih =>
    rw [Slice.foldl_range_succ, storeOutput,
      Slice.read_storeWhere_of_ne _ _ (valid_foldl_storeOutput getName fold hs k s hs) ht, ih]

theorem read_storeOutputs_of_ne (hs : Slice.Valid arrays s) (ht : t.array ≠ s.array) :
    Slice.read (storeOutputs getName fold arrays s args) t = Slice.read arrays t :=
  read_foldl_storeOutput_of_ne getName fold hs ht _

/-- After `k` iterations of the loops of `SetOutputs`, every header that starts where `s` starts
reads `g k` of each element it shares with `s`. -/
def Stored (arrays : Arrays α) (s args : Slice) (g : Nat → α → α) (k : Nat) : Prop :=
  ∀ t : Slice, t.array = s.array → t.offset = s.offset →
    Slice.read ((List.range k).foldl (storeOutput getName fold s args) arrays) t =
      ((Slice.read arrays t).take s.len).map (g k) ++ (Slice.read arrays t).drop s.len

/-- The loops of `SetOutputs`, iteration by iteration: when iteration `k` reads `out k` from `args`
and storing it turns `g k` into `g (k + 1)`, every iteration keeps `Stored`. -/
theorem stored_foldl_storeOutput (hs : Slice.Valid arrays s) (g : Nat → α → α) (out : Nat → α)
    (h₀ : ∀ o, g 0 o = o)
    (hout : ∀ k < args.len, Stored getName fold arrays s args g k →
      (Slice.read ((List.range k).foldl (storeOutput getName fold s args) arrays) args).getD k default =
        out k)
    (hstep : ∀ k < args.len, ∀ o, (if GoString.equalFold fold (getName (g k o)) (getName (out k))
      then out k else g k o) = g (k + 1) o) :
    ∀ k ≤ args.len, Stored getName fold arrays s args g k := by
  intro k hk
  induction k with
  | zero =>
    intro t _ _
    rw [show g 0 = id from funext h₀, List.map_id, List.range_zero, List.foldl_nil, List.take_append_drop]
  | succ k ih =>
    have ih := ih (by omega)
    intro t ht hoff
    rw [Slice.foldl_range_succ, storeOutput, hout k hk ih,
      Slice.read_storeWhere _ _ (valid_foldl_storeOutput getName fold hs k s hs) ht hoff, ih t ht hoff]
    obtain ⟨h₁, h₂⟩ := Slice.take_map_take_append_drop (Slice.read arrays t) (g k) s.len
    rw [h₁, h₂, List.map_map]
    exact congrArg (· ++ _) (List.map_congr_left fun o _ => hstep k hk o)

/-- The loops of `SetOutputs` with a variadic slice in another array than `s`: no store reaches
it, and they are `Logger.setOutputs` of its elements, as seen by every header that starts where
`s` starts, on the elements it shares with `s`. -/
theorem read_storeOutputs (hs : Slice.Valid arrays s) (hargs : Slice.Valid arrays args)
    (hne : args.array ≠ s.array) (ht : t.array = s.array) (hoff : t.offset = s.offset) :
    Slice.read (storeOutputs getName fold arrays s args) t =
      Logger.setOutputs getName fold ((Slice.read arrays t).take s.len) (Slice.read arrays args) ++
        (Slice.read arrays t).drop s.len := by
  set us := Slice.read arrays args
  have hlen : us.length = args.len := Slice.length_read hargs
  have h := stored_foldl_storeOutput getName fold hs
    (fun k => Logger.replacement getName fold (us.take k)) (fun k => us.getD k default) (fun _ => rfl)
    (fun k _ _ => by rw [read_foldl_storeOutput_of_ne getName fold hs hne])
    (fun k hk o => by
      beta_reduce
      rw [List.take_succ, List.getElem?_eq_getElem (by omega), Option.toList_some,
        Logger.replacement_concat, List.getD_eq_getElem _ _ (by omega)])
    args.len le_rfl t ht hoff
  beta_reduce at h
  rw [storeOutputs, h, List.take_of_length_le hlen.le, Logger.setOutputs_eq_map]

/-- The loops of `SetOutputs` given the outputs `s` they store into, as
`l.SetOutputs(l.GetOutputs()...)` gives them: the outer loop reads each element after the earlier
iterations stored into it, and each element ends as the first one of its class, what `GetOutput`
returned for its name before the call. -/
theorem read_storeOutputs_self (hs : Slice.Valid arrays s) (ht : t.array = s.array)
    (hoff : t.offset = s.offset) :
    Slice.read (storeOutputs getName fold arrays s s) t =
      ((Slice.read arrays t).take s.len).map (Logger.firstOfClass getName fold (Slice.read arrays s)) ++
        (Slice.read arrays t).drop s.len := by
  set os := Slice.read arrays s
  have hlen : os.length = s.len := Slice.length_read hs
  have h := stored_foldl_storeOutput getName fold hs
    (fun k => Logger.firstOfClass getName fold (os.take k))
    (fun k => Logger.firstOfClass getName fold (os.take k) (os.getD k default)) (fun _ => rfl)
    (fun k hk hk' => by
      beta_reduce
      rw [hk' s rfl rfl, List.take_of_length_le hlen.le, List.drop_of_length_le hlen.le,
        List.append_nil, List.getD_eq_getElem _ _ (by simpa [hlen]), List.getElem_map,
        List.getD_eq_getElem _ _ (by omega)])
    (fun k hk o => by
      beta_reduce
      rw [List.take_succ, List.getElem?_eq_getElem (by omega), Option.toList_some,
        Logger.firstOfClass_concat, List.getD_eq_getElem _ _ (by omega)])
    s.len le_rfl t ht hoff
  beta_reduce at h
  rw [storeOutputs, h, List.take_of_length_le hlen.le]

end StoreOutputs

namespace State

/-- The elements of the field `f` of the logger at `p`. -/
def read (f : Field α β) (st : State α) (p : Nat) : List β :=
  match st.loggers[p]? with
  | none => []
  | some sypl => Slice.read (f.arrays st) (f.header sypl)

/-- `GetTags()` of the logger at `p`. -/
def tags (st : State α) (p : Nat) : List GoString := st.read tagsField p

/-- `GetOutputs()` of the logger at `p`. -/
def outputs (st : State α) (p : Nat) : List α := st.read outputsField p

/-- `cap - len` of the field `f` of the logger at `p`: how many elements `append` writes in place. -/
def room (f : Field α β) (st : State α) (p : Nat) : Nat :=
  match st.loggers[p]? with
  | none => 0
  | some sypl => (f.header sypl).cap - (f.header sypl).len

/-- The headers of the field `f` of every logger lie in their arrays. -/
def FieldValid (f : Field α β) (st : State α) : Prop :=
  ∀ sypl ∈ st.loggers, Slice.Valid (f.arrays st) (f.header sypl)

/-- The headers of every logger lie in their arrays. -/
structure Valid (st : State α) : Prop where
  tags : FieldValid tagsField st
  outputs : FieldValid outputsField st

/-- The logger at `p` as the value `process` reads. -/
def view (st : State Output) (p : Nat) : Option Logger :=
  st.loggers[p]?.map fun sypl => ⟨sypl.name, sypl.defaultIoWriterLevel, sypl.fields,
    Slice.read st.outputArrays sypl.outputs, sypl.status, some (Slice.read st.tagArrays sypl.tags)⟩

section Operations

variable (grow : Nat → Nat → Nat)

/-- `New(name, outputs...)`, with `outputs` the variadic slice: the logger's `tags` is
`[]string{}`, a new empty array. -/
def new (st : State α) (name : GoString) (outputs : Slice) : State α × Nat :=
  let (tagArrays, tags) := Slice.alloc st.tagArrays []
  ({ st with tagArrays, loggers := st.loggers ++ [⟨name, Level.none, some .empty, outputs, .enabled,
    tags⟩] }, st.loggers.length)

/-- `sypl.New(name)`: `New(name, sypl.outputs...)`, then the parent's default level, fields,
status and tags. A pointer that is no logger (`nil`) leaves the state alone, where Go panics. -/
def child (st : State α) (p : Nat) (name : GoString) : State α × Nat :=
  match st.loggers[p]? with
  | none => (st, p)
  | some sypl =>
    let (st, s) := new st name sypl.outputs
    ({ st with loggers := st.loggers.modify (fun o => { o with
      defaultIoWriterLevel := sypl.defaultIoWriterLevel, fields := sypl.fields,
      status := sypl.status, tags := sypl.tags }) s }, s)

/-- `sypl.f = append(sypl.f, xs...)` for the slice field `f`. -/
def appendTo [Inhabited β] (f : Field α β) (st : State α) (p : Nat) (xs : List β) : State α :=
  match st.loggers[p]? with
  | none => st
  | some sypl =>
    let (arrays, s) := Slice.append grow (f.arrays st) (f.header sypl) xs
    { f.setArrays st arrays with loggers := st.loggers.set p (f.setHeader sypl s) }

/-- `SetTags(tags...)`: `sypl.tags = append(sypl.tags, tags...)`. -/
def setTags (st : State α) (p : Nat) (tags : List GoString) : State α :=
  st.appendTo grow tagsField p tags

/-- `AddOutputs(outputs...)`: `sypl.outputs = append(sypl.outputs, outputs...)`. -/
def addOutputs [Inhabited α] (st : State α) (p : Nat) (outputs : List α) : State α :=
  st.appendTo grow outputsField p outputs

/-- `SetOutputs(outputs...)`, with `outputs` the variadic slice: for each of its elements, read
when the outer loop reaches it, the range loop over `sypl.outputs` stores it at every index whose
output's name `strings.EqualFold`s its name. -/
def setOutputs [Inhabited α] (getName : α → GoString) (fold : Char → Char) (st : State α) (p : Nat)
    (outputs : Slice) : State α :=
  match st.loggers[p]? with
  | none => st
  | some sypl =>
    { st with outputArrays := storeOutputs getName fold st.outputArrays sypl.outputs outputs }

/-- A call with the variadic argument `outputs ...output.IOutput`: `f` runs with the slice the
call receives. A listed argument gets a new array; a spread header that lies in no array, which
no Go program holds, leaves the state alone. -/
def callWith (st : State α) (outputs : Args α) (f : State α → Slice → State α) : State α :=
  match outputs with
  | .list outputs =>
    f { st with outputArrays := (Slice.alloc st.outputArrays outputs).1 } (Slice.alloc st.outputArrays outputs).2
  | .spread s => if Slice.Valid st.outputArrays s then f st s else st

end Operations

theorem modify_length_append {γ : Type} (f : γ → γ) (l : List γ) (x : γ) :
    (l ++ [x]).modify f l.length = l ++ [f x] := by
  induction l with
  | nil => rfl
  | cons a l ih => exact congrArg (a :: ·) ih

section AppendTo

variable (grow : Nat → Nat → Nat) [Inhabited β] {f : Field α β} (hf : f.Lawful) {st : State α}
  {p : Nat} {sypl : Object}

theorem appendTo_eq (hp : st.loggers[p]? = some sypl) (xs : List β) :
    st.appendTo grow f p xs = { f.setArrays st (Slice.append grow (f.arrays st) (f.header sypl) xs).1 with
      loggers := st.loggers.set p
        (f.setHeader sypl (Slice.append grow (f.arrays st) (f.header sypl) xs).2) } := by
  simp only [appendTo, hp]

omit [Inhabited β] in
theorem read_eq (hp : st.loggers[p]? = some sypl) :
    st.read f p = Slice.read (f.arrays st) (f.header sypl) := by
  simp only [read, hp]

include hf in
theorem FieldValid.appendTo (hv : FieldValid f st) (p : Nat) (xs : List β) :
    FieldValid f (st.appendTo grow f p xs) := by
  cases hp : st.loggers[p]? with
  | none => simpa only [State.appendTo, hp] using hv
  | some sypl =>
    have hs := hv sypl (List.mem_iff_getElem?.2 ⟨p, hp⟩)
    rw [appendTo_eq grow hp]
    intro o ho
    rw [hf.arrays_loggers, hf.arrays_setArrays]
    rcases List.mem_or_eq_of_mem_set ho with ho | rfl
    · exact Slice.Valid.of_append grow xs hs (hv o ho)
    · rw [hf.header_setHeader]
      exact Slice.Valid.append grow xs hs

include hf in
theorem read_appendTo_self (hv : FieldValid f st) (hp : p < st.loggers.length) (xs : List β) :
    (st.appendTo grow f p xs).read f p = st.read f p ++ xs := by
  obtain ⟨sypl, hs⟩ : ∃ sypl, st.loggers[p]? = some sypl := ⟨_, List.getElem?_eq_getElem hp⟩
  rw [appendTo_eq grow hs, read_eq (List.getElem?_set_self hp), read_eq hs, hf.arrays_loggers,
    hf.arrays_setArrays, hf.header_setHeader]
  exact Slice.read_append_self grow xs (hv sypl (List.mem_iff_getElem?.2 ⟨p, hs⟩))

omit [Inhabited β] in
theorem room_eq (hp : st.loggers[p]? = some sypl) :
    st.room f p = (f.header sypl).cap - (f.header sypl).len := by
  simp only [room, hp]

theorem loggers_appendTo (hp : st.loggers[p]? = some sypl) (xs : List β) :
    (st.appendTo grow f p xs).loggers =
      st.loggers.set p (f.setHeader sypl (Slice.append grow (f.arrays st) (f.header sypl) xs).2) := by
  rw [appendTo_eq grow hp]

omit [Inhabited β] in
theorem length_appendTo [Inhabited β] (p : Nat) (xs : List β) :
    (st.appendTo grow f p xs).loggers.length = st.loggers.length := by
  cases hp : st.loggers[p]? with
  | none => simp only [appendTo, hp]
  | some sypl => rw [loggers_appendTo grow hp, List.length_set]

include hf in
theorem arrays_appendTo (hp : st.loggers[p]? = some sypl) (xs : List β) :
    f.arrays (st.appendTo grow f p xs) = (Slice.append grow (f.arrays st) (f.header sypl) xs).1 := by
  rw [appendTo_eq grow hp, hf.arrays_loggers, hf.arrays_setArrays]

variable {γ : Type} {g : Field α γ}

/-- An append to the field `f` keeps the headers of a field `g` that it does not write in their
arrays. -/
theorem FieldValid.appendTo_of_other (hg : g.Lawful) (harr : ∀ st a, g.arrays (f.setArrays st a) = g.arrays st)
    (hh : ∀ o s, g.header (f.setHeader o s) = g.header o) (hv : FieldValid g st) (p : Nat)
    (xs : List β) : FieldValid g (st.appendTo grow f p xs) := by
  cases hp : st.loggers[p]? with
  | none => simpa only [State.appendTo, hp] using hv
  | some sypl =>
    rw [appendTo_eq grow hp]
    intro o ho
    rw [hg.arrays_loggers, harr]
    rcases List.mem_or_eq_of_mem_set ho with ho | rfl
    · exact hv o ho
    · rw [hh]
      exact hv sypl (List.mem_iff_getElem?.2 ⟨p, hp⟩)

/-- An append to the field `f` changes no element of a field `g` that it does not write. -/
theorem read_appendTo_of_other (hg : g.Lawful) (harr : ∀ st a, g.arrays (f.setArrays st a) = g.arrays st)
    (hh : ∀ o s, g.header (f.setHeader o s) = g.header o) (p : Nat) (xs : List β) (q : Nat) :
    (st.appendTo grow f p xs).read g q = st.read g q := by
  cases hp : st.loggers[p]? with
  | none => simp only [State.appendTo, hp]
  | some sypl =>
    rw [appendTo_eq grow hp]
    simp only [read, hg.arrays_loggers, harr, List.getElem?_set]
    split_ifs with h₁ h₂
    · subst h₁
      simp only [hp, hh]
    · subst h₁
      rw [List.getElem?_eq_none (by omega)]
    · rfl

include hf in
/-- Two loggers with one header append in turn: the second reads the elements and its own; the
first reads what the second wrote over its own when both appends fit in the spare capacity, and
its own otherwise. -/
theorem read_appendTo_appendTo (hv : FieldValid f st) {q : Nat} {a : Object} (hpq : p ≠ q)
    (hp : st.loggers[p]? = some sypl) (hq : st.loggers[q]? = some a)
    (hsame : f.header a = f.header sypl) (xs ys : List β) :
    let st₂ := (st.appendTo grow f p xs).appendTo grow f q ys
    st₂.read f q = st.read f p ++ ys ∧
      st₂.read f p = st.read f p ++ if xs.length ≤ st.room f p ∧ ys.length ≤ st.room f p
        then (ys ++ xs.drop ys.length).take xs.length else xs := by
  have hs := hv sypl (List.mem_iff_getElem?.2 ⟨p, hp⟩)
  have hplt := (List.getElem?_eq_some_iff.1 hp).1
  have hqlt := (List.getElem?_eq_some_iff.1 hq).1
  obtain ⟨h₁, h₂⟩ := Slice.read_append_append grow xs hs ys
  have hq₁ : (st.appendTo grow f p xs).loggers[q]? = some a := by
    rw [loggers_appendTo grow hp, List.getElem?_set_ne hpq, hq]
  intro st₂
  have hp₂ : st₂.loggers[p]? = some (f.setHeader sypl (Slice.append grow (f.arrays st) (f.header sypl) xs).2) := by
    rw [loggers_appendTo grow hq₁, List.getElem?_set_ne hpq.symm, loggers_appendTo grow hp,
      List.getElem?_set_self hplt]
  have hq₂ : st₂.loggers[q]? = some (f.setHeader a (Slice.append grow (f.arrays (st.appendTo grow f p xs)) (f.header a) ys).2) := by
    rw [loggers_appendTo grow hq₁, List.getElem?_set_self (by simpa [loggers_appendTo grow hp] using hqlt)]
  rw [read_eq hp₂, read_eq hq₂, read_eq hp, room_eq hp, arrays_appendTo grow hf hq₁,
    arrays_appendTo grow hf hp, hf.header_setHeader, hf.header_setHeader, hsame]
  simp only [Nat.le_sub_iff_add_le' hs.len_le]
  exact ⟨h₁, h₂⟩

end AppendTo

/-! ## Children -/

section Child

variable {st : State α} {p : Nat} {sypl : Object}

/-- The object `sypl.New(name)` makes: the parent's headers, level, fields and status. -/
def childObject (sypl : Object) (name : GoString) : Object :=
  ⟨name, sypl.defaultIoWriterLevel, sypl.fields, sypl.outputs, sypl.status, sypl.tags⟩

theorem child_eq (hp : st.loggers[p]? = some sypl) (name : GoString) :
    st.child p name = (⟨st.outputArrays, st.tagArrays ++ [[]], st.loggers ++ [childObject sypl name]⟩,
      st.loggers.length) := by
  simp only [child, hp, new, Slice.alloc, modify_length_append, childObject]

theorem child_snd (hp : p < st.loggers.length) (name : GoString) :
    (st.child p name).2 = st.loggers.length := by
  rw [child_eq (List.getElem?_eq_getElem hp)]

theorem getElem?_child_of_lt (hp : p < st.loggers.length) (name : GoString) {q : Nat}
    (hq : q < st.loggers.length) : (st.child p name).1.loggers[q]? = st.loggers[q]? := by
  rw [child_eq (List.getElem?_eq_getElem hp), List.getElem?_append_left hq]

/-- `sypl.New(name)` leaves every other logger's tags alone. -/
theorem tags_child (hv : st.Valid) (hp : p < st.loggers.length) (name : GoString) {q : Nat}
    (hq : q < st.loggers.length) : (st.child p name).1.tags q = st.tags q := by
  obtain ⟨o, ho⟩ : ∃ o, st.loggers[q]? = some o := ⟨_, List.getElem?_eq_getElem hq⟩
  rw [tags, tags, read_eq ((getElem?_child_of_lt hp name hq).trans ho), read_eq ho,
    child_eq (List.getElem?_eq_getElem hp)]
  exact Slice.read_alloc (hv.tags o (List.mem_iff_getElem?.2 ⟨q, ho⟩)) []

/-- `sypl.New(name)` leaves every other logger's outputs alone. -/
theorem outputs_child (hp : p < st.loggers.length) (name : GoString) {q : Nat}
    (hq : q < st.loggers.length) : (st.child p name).1.outputs q = st.outputs q := by
  obtain ⟨o, ho⟩ : ∃ o, st.loggers[q]? = some o := ⟨_, List.getElem?_eq_getElem hq⟩
  rw [outputs, outputs, read_eq ((getElem?_child_of_lt hp name hq).trans ho), read_eq ho,
    child_eq (List.getElem?_eq_getElem hp)]
  rfl

theorem room_child (f : Field α β) (hp : p < st.loggers.length) (name : GoString) {q : Nat}
    (hq : q < st.loggers.length) : (st.child p name).1.room f q = st.room f q := by
  simp only [room, getElem?_child_of_lt hp name hq]

variable (grow : Nat → Nat → Nat) [Inhabited β] {f : Field α β}

include grow in
/-- A parent and the child it just made append in turn to a slice field they share. -/
theorem read_child_appendTo_appendTo (hf : f.Lawful) (hp : p < st.loggers.length)
    (name : GoString) (hv : FieldValid f (st.child p name).1)
    (hsame : ∀ sypl, f.header (childObject sypl name) = f.header sypl) (xs ys : List β) :
    let st₁ := st.child p name
    let st₂ := (st₁.1.appendTo grow f p xs).appendTo grow f st₁.2 ys
    st₂.read f st₁.2 = st₁.1.read f p ++ ys ∧
      st₂.read f p = st₁.1.read f p ++ if xs.length ≤ st₁.1.room f p ∧ ys.length ≤ st₁.1.room f p
        then (ys ++ xs.drop ys.length).take xs.length else xs := by
  obtain ⟨sypl, hs⟩ : ∃ sypl, st.loggers[p]? = some sypl := ⟨_, List.getElem?_eq_getElem hp⟩
  have hq : (st.child p name).1.loggers[(st.child p name).2]? = some (childObject sypl name) := by
    rw [child_eq hs]
    simp
  exact read_appendTo_appendTo grow hf hv (by rw [child_snd hp]; exact Nat.ne_of_lt hp)
    ((getElem?_child_of_lt hp name hp).trans hs) hq (hsame sypl) xs ys

end Child

/-! ## `SetOutputs` -/

section SetOutputs

variable [Inhabited α] (getName : α → GoString) (fold : Char → Char) {st : State α} {p q : Nat}
  {sypl o : Object}

theorem setOutputs_eq (hp : st.loggers[p]? = some sypl) (args : Slice) :
    st.setOutputs getName fold p args =
      { st with outputArrays := storeOutputs getName fold st.outputArrays sypl.outputs args } := by
  simp only [setOutputs, hp]

theorem loggers_setOutputs (p : Nat) (args : Slice) :
    (st.setOutputs getName fold p args).loggers = st.loggers := by
  unfold setOutputs
  split <;> rfl

/-- `SetOutputs` changes no tags. -/
theorem tags_setOutputs (p : Nat) (args : Slice) (q : Nat) :
    (st.setOutputs getName fold p args).tags q = st.tags q := by
  unfold setOutputs
  split <;> rfl

theorem Valid.setOutputs (hv : st.Valid) (p : Nat) (args : Slice) :
    (st.setOutputs getName fold p args).Valid := by
  cases hp : st.loggers[p]? with
  | none => simpa only [State.setOutputs, hp] using hv
  | some sypl =>
    rw [setOutputs_eq getName fold hp]
    exact ⟨hv.tags, fun o ho =>
      valid_storeOutputs getName fold (hv.outputs sypl (List.mem_iff_getElem?.2 ⟨p, hp⟩)) (hv.outputs o ho)⟩

/-- The outputs of the logger at `q`, after `SetOutputs(args...)` on the logger at `p`, when both
start at one place of one array. -/
theorem outputs_setOutputs_eq (hv : st.Valid) (hp : st.loggers[p]? = some sypl)
    (hq : st.loggers[q]? = some o) (args : Slice) :
    (st.setOutputs getName fold p args).outputs q =
      Slice.read (storeOutputs getName fold st.outputArrays sypl.outputs args) o.outputs ∧
    (st.outputs p).length = sypl.outputs.len := by
  rw [State.outputs, State.outputs, read_eq ((loggers_setOutputs getName fold p args).symm ▸ hq),
    read_eq hp, setOutputs_eq getName fold hp]
  exact ⟨rfl, Slice.length_read (hv.outputs sypl (List.mem_iff_getElem?.2 ⟨p, hp⟩))⟩

/-- `SetOutputs(args...)` on the logger at `p` as the logger at `q` sees it, when the outputs of
both start at one place of one array and `args` lies in another array: `Logger.setOutputs` of the
elements of `args` on the outputs they share. -/
theorem outputs_setOutputs (hv : st.Valid) (hp : st.loggers[p]? = some sypl)
    (hq : st.loggers[q]? = some o) (harr : o.outputs.array = sypl.outputs.array)
    (hoff : o.outputs.offset = sypl.outputs.offset) {args : Slice}
    (hargs : Slice.Valid st.outputArrays args) (hne : args.array ≠ sypl.outputs.array) :
    (st.setOutputs getName fold p args).outputs q =
      Logger.setOutputs getName fold ((st.outputs q).take (st.outputs p).length)
        (Slice.read st.outputArrays args) ++ (st.outputs q).drop (st.outputs p).length := by
  obtain ⟨h, hlen⟩ := outputs_setOutputs_eq getName fold hv hp hq args
  rw [h, hlen, State.outputs, read_eq hq]
  exact read_storeOutputs getName fold (hv.outputs sypl (List.mem_iff_getElem?.2 ⟨p, hp⟩)) hargs hne
    harr hoff

/-- `SetOutputs(args...)` on the logger at `p`, as a logger with the same outputs header sees it,
when `args` lies in another array: `Logger.setOutputs` of the elements of `args` on the outputs
they share. -/
theorem outputs_setOutputs_of_header (hv : st.Valid) (hp : st.loggers[p]? = some sypl)
    (hq : st.loggers[q]? = some o) (hsame : o.outputs = sypl.outputs) {args : Slice}
    (hargs : Slice.Valid st.outputArrays args) (hne : args.array ≠ sypl.outputs.array) :
    (st.setOutputs getName fold p args).outputs q =
      Logger.setOutputs getName fold (st.outputs p) (Slice.read st.outputArrays args) := by
  have hqp : st.outputs q = st.outputs p := by
    simp only [State.outputs, read_eq hq, read_eq hp, outputsField, hsame]
  rw [outputs_setOutputs getName fold hv hp hq (by rw [hsame]) (by rw [hsame]) hargs hne, hqp,
    List.take_length, List.drop_length, List.append_nil]

/-- `SetOutputs` on the logger at `p` leaves the outputs of a logger in another array alone. -/
theorem outputs_setOutputs_of_ne (hv : st.Valid) (hp : st.loggers[p]? = some sypl)
    (hq : st.loggers[q]? = some o) (harr : o.outputs.array ≠ sypl.outputs.array) (args : Slice) :
    (st.setOutputs getName fold p args).outputs q = st.outputs q := by
  rw [(outputs_setOutputs_eq getName fold hv hp hq args).1, State.outputs, read_eq hq]
  exact read_storeOutputs_of_ne getName fold (hv.outputs sypl (List.mem_iff_getElem?.2 ⟨p, hp⟩)) harr

end SetOutputs

/-! ## The invariant -/

section Invariant

variable (grow : Nat → Nat → Nat) {st : State α}

theorem Valid.new (hv : st.Valid) (name : GoString) {outputs : Slice}
    (hs : Slice.Valid st.outputArrays outputs) : (st.new name outputs).1.Valid := by
  constructor <;> intro o ho <;> rcases List.mem_append.1 ho with ho | ho
  · exact (hv.tags o ho).of_alloc []
  · rw [List.mem_singleton.1 ho]
    exact Slice.Valid.alloc _ _
  · exact hv.outputs o ho
  · rw [List.mem_singleton.1 ho]
    exact hs

/-- A call keeps the invariant when its body does, given a slice of the program. -/
theorem Valid.callWith (hv : st.Valid) (outputs : Args α) {f : State α → Slice → State α}
    (hf : ∀ st s, st.Valid → Slice.Valid st.outputArrays s → (f st s).Valid) :
    (st.callWith outputs f).Valid := by
  cases outputs with
  | list outputs =>
    exact hf _ _ ⟨hv.tags, fun o ho => (hv.outputs o ho).of_alloc outputs⟩ (Slice.Valid.alloc _ _)
  | spread s =>
    dsimp only [State.callWith]
    split_ifs with hs
    · exact hf st s hv hs
    · exact hv

theorem Valid.child (hv : st.Valid) (p : Nat) (name : GoString) : (st.child p name).1.Valid := by
  cases hp : st.loggers[p]? with
  | none => simpa only [State.child, hp] using hv
  | some sypl =>
    have hs := List.mem_iff_getElem?.2 ⟨p, hp⟩
    rw [child_eq hp]
    constructor <;> intro o ho <;> rcases List.mem_append.1 ho with ho | ho
    · exact (hv.tags o ho).of_alloc []
    · rw [List.mem_singleton.1 ho]
      exact (hv.tags sypl hs).of_alloc []
    · exact hv.outputs o ho
    · rw [List.mem_singleton.1 ho]
      exact hv.outputs sypl hs

theorem Valid.setTags (hv : st.Valid) (p : Nat) (tags : List GoString) :
    (st.setTags grow p tags).Valid :=
  ⟨hv.tags.appendTo grow tagsField_lawful p tags,
    hv.outputs.appendTo_of_other grow outputsField_lawful (fun _ _ => rfl) (fun _ _ => rfl) p tags⟩

theorem Valid.addOutputs [Inhabited α] (hv : st.Valid) (p : Nat) (outputs : List α) :
    (st.addOutputs grow p outputs).Valid :=
  ⟨hv.tags.appendTo_of_other grow tagsField_lawful (fun _ _ => rfl) (fun _ _ => rfl) p outputs,
    hv.outputs.appendTo grow outputsField_lawful p outputs⟩

end Invariant


end State

/-! ## Programs -/

/-- The calls of a program on its loggers that the model covers. `SetTags` and `AddOutputs` take
their arguments as lists: `append` copies the elements of its argument before it writes, as
`memmove` does, so a spread argument acts as the list of its elements. -/
inductive Op (α : Type) where
  | new (name : GoString) (outputs : Args α)
  | child (p : Nat) (name : GoString)
  | setTags (p : Nat) (tags : List GoString)
  | addOutputs (p : Nat) (outputs : List α)
  | setOutputs (p : Nat) (outputs : Args α)

section Run

variable [Inhabited α] (grow : Nat → Nat → Nat) (getName : α → GoString) (fold : Char → Char)

/-- One call. -/
def State.step (st : State α) : Op α → State α
  | .new name outputs => st.callWith outputs fun st s => (st.new name s).1
  | .child p name => (st.child p name).1
  | .setTags p tags => st.setTags grow p tags
  | .addOutputs p outputs => st.addOutputs grow p outputs
  | .setOutputs p outputs => st.callWith outputs fun st s => st.setOutputs getName fold p s

/-- A program's loggers after its calls, from none. -/
def run (ops : List (Op α)) : State α := ops.foldl (State.step grow getName fold) ⟨[], [], []⟩

theorem State.Valid.step {st : State α} (hv : st.Valid) : ∀ op, (st.step grow getName fold op).Valid
  | .new name outputs => hv.callWith outputs (f := fun st s => (st.new name s).1) fun _ _ hv hs =>
    hv.new name hs
  | .child p name => hv.child p name
  | .setTags p tags => hv.setTags grow p tags
  | .addOutputs p outputs => hv.addOutputs grow p outputs
  | .setOutputs p outputs => hv.callWith outputs (f := fun st s => st.setOutputs getName fold p s)
    fun _ s hv _ => hv.setOutputs getName fold p s

/-- Every header of every program lies in its array. -/
theorem valid_run (ops : List (Op α)) : (run grow getName fold ops).Valid := by
  suffices ∀ st : State α, st.Valid → (ops.foldl (State.step grow getName fold) st).Valid from
    this _ ⟨fun _ h => absurd h (List.not_mem_nil _), fun _ h => absurd h (List.not_mem_nil _)⟩
  induction ops with
  | nil => exact fun _ hv => hv
  | cons op ops ih => exact fun st hv => ih _ (hv.step grow getName fold op)

end Run

namespace State

/-! ## A parent and its child -/

section Family

variable (grow : Nat → Nat → Nat) {st : State α} {p : Nat}

/-- After `SetTags` on a parent and then on the child it made, the child reads the parent's tags
and its own; the parent reads the child's over its own when both fit in the spare capacity of
its tags, and its own otherwise. -/
theorem tags_child_setTags_setTags (hv : st.Valid) (hp : p < st.loggers.length) (name : GoString)
    (xs ys : List GoString) :
    let st₁ := st.child p name
    let st₂ := (st₁.1.setTags grow p xs).setTags grow st₁.2 ys
    st₂.tags st₁.2 = st.tags p ++ ys ∧
      st₂.tags p = st.tags p ++ if xs.length ≤ st.room tagsField p ∧ ys.length ≤ st.room tagsField p
        then (ys ++ xs.drop ys.length).take xs.length else xs := by
  rw [← tags_child hv hp name hp, ← room_child tagsField hp name hp]
  exact read_child_appendTo_appendTo grow tagsField_lawful hp name (hv.child p name).tags
    (fun _ => rfl) xs ys

/-- With Go's growth, a parent that tagged itself three times has room for one more tag: its
child's tag lands at the end of the parent's tags, over the parent's own. -/
theorem tags_child_setTags_setTags_api :
    let st : State Output := run Slice.growslice Output.name id
      [.new "api" (.list []), .setTags 0 ["a"], .setTags 0 ["b"], .setTags 0 ["c"]]
    let xs : List GoString := ["x"]
    let ys : List GoString := ["y"]
    let st₁ := st.child 0 "db"
    let st₂ := (st₁.1.setTags Slice.growslice 0 xs).setTags Slice.growslice st₁.2 ys
    st.Valid ∧ 0 < st.loggers.length ∧
      (st₂.tags st₁.2 = st.tags 0 ++ ys ∧
        st₂.tags 0 = st.tags 0 ++ if xs.length ≤ st.room tagsField 0 ∧ ys.length ≤ st.room tagsField 0
          then (ys ++ xs.drop ys.length).take xs.length else xs) ∧
      st₂.tags 0 = ["a", "b", "c", "y"] :=
  ⟨valid_run Slice.growslice Output.name id _, by decide, tags_child_setTags_setTags Slice.growslice
    (valid_run Slice.growslice Output.name id _) (by decide) "db" ["x"] ["y"], by decide⟩

/-- After `AddOutputs` on a parent and then on the child it made, the child reads the parent's
outputs and its own; the parent reads the child's over its own when both fit in the spare
capacity of its outputs, and its own otherwise. -/
theorem outputs_child_addOutputs_addOutputs [Inhabited α] (hv : st.Valid)
    (hp : p < st.loggers.length) (name : GoString) (xs ys : List α) :
    let st₁ := st.child p name
    let st₂ := (st₁.1.addOutputs grow p xs).addOutputs grow st₁.2 ys
    st₂.outputs st₁.2 = st.outputs p ++ ys ∧
      st₂.outputs p = st.outputs p ++
        if xs.length ≤ st.room outputsField p ∧ ys.length ≤ st.room outputsField p
        then (ys ++ xs.drop ys.length).take xs.length else xs := by
  rw [← outputs_child hp name hp, ← room_child outputsField hp name hp]
  exact read_child_appendTo_appendTo grow outputsField_lawful hp name (hv.child p name).outputs
    (fun _ => rfl) xs ys

end Family


/-! ## The variadic slice of `SetOutputs` -/

section Variadic

variable [Inhabited α] (getName : α → GoString) (fold : Char → Char) {st : State α} {p q : Nat}
  {sypl o : Object}

/-- `SetOutputs(us...)` on the logger at `p`, when the slice `us` lies in another array than the
logger's outputs `os`, as the slice of `SetOutputs(u₁, …, uₙ)` does: the outputs keep their length
and order, with at each position the last element of `us` whose name equals the registered one's
ignoring case, or the registered output when none does; no element of `us` that matches no
registered name is added; and then `GetOutput(u.GetName())` returns `u` for every `u` that is the
last of its class in `us` and matched a registered output. -/
theorem setOutputs_apart_spec (hv : st.Valid) (hp : st.loggers[p]? = some sypl) {args : Slice}
    (hargs : Slice.Valid st.outputArrays args) (hne : args.array ≠ sypl.outputs.array) :
    let os := st.outputs p
    let us := Slice.read st.outputArrays args
    let os' := (st.setOutputs getName fold p args).outputs p
    os' = os.map (fun o =>
      ((us.filter fun u => GoString.equalFold fold (getName o) (getName u)).getLast?).getD o) ∧
    (∀ x ∈ os', x ∈ os ∨ x ∈ us ∧ ∃ o ∈ os, GoString.equalFold fold (getName o) (getName x)) ∧
    ∀ u, (us.filter fun u' => GoString.equalFold fold (getName u) (getName u')).getLast? = some u →
      (∃ o ∈ os, GoString.equalFold fold (getName o) (getName u)) →
      Logger.getOutput getName fold os' (getName u) = some u := by
  intro os us os'
  have h : os' = Logger.setOutputs getName fold os us := by
    simpa only [List.take_length, List.drop_length, List.append_nil] using
      outputs_setOutputs getName fold hv hp hp rfl rfl hargs hne
  rw [h]
  exact Logger.setOutputs_spec getName fold os us

/-- `SetOutputs(o.GetOutputs()...)` with the outputs of another logger: its `a` replaces `A`. -/
theorem setOutputs_apart_spec_ops :
    let st : State Output := run Slice.growslice Output.name id
      [.new "api" (.list [⟨"A", .enabled⟩, ⟨"b", .enabled⟩]), .new "ops" (.list [⟨"a", .disabled⟩])]
    let sypl : Object := ⟨"api", Level.none, some .empty, ⟨0, 0, 2, 2⟩, .enabled, ⟨0, 0, 0, 0⟩⟩
    let args : Slice := ⟨1, 0, 1, 1⟩
    let os := st.outputs 0
    let us := Slice.read st.outputArrays args
    let os' := (st.setOutputs Output.name id 0 args).outputs 0
    (st.Valid ∧ st.loggers[0]? = some sypl ∧ Slice.Valid st.outputArrays args ∧
      args.array ≠ sypl.outputs.array) ∧
    (os' = os.map (fun o =>
      ((us.filter fun u => GoString.equalFold id o.name u.name).getLast?).getD o) ∧
    (∀ x ∈ os', x ∈ os ∨ x ∈ us ∧ ∃ o ∈ os, GoString.equalFold id o.name x.name) ∧
    ∀ u, (us.filter fun u' => GoString.equalFold id u.name u'.name).getLast? = some u →
      (∃ o ∈ os, GoString.equalFold id o.name u.name) →
      Logger.getOutput Output.name id os' u.name = some u) ∧
    os' = [⟨"a", .disabled⟩, ⟨"b", .enabled⟩] :=
  ⟨⟨valid_run Slice.growslice Output.name id _, rfl, by decide, by decide⟩,
    setOutputs_apart_spec Output.name id (valid_run Slice.growslice Output.name id _) rfl (by decide)
      (by decide), by decide⟩

/-- `l.SetOutputs(l.GetOutputs()...)` on a logger whose outputs `A` and `a` have names equal
ignoring case: the last given output of their class is `a`, but the loop stores `A` over `a`
before it reads that element back, and both positions end with `A`. -/
theorem setOutputs_own_outputs_case :
    let st : State Output := run Slice.growslice Output.name id
      [.new "api" (.list [⟨"A", .enabled⟩, ⟨"a", .disabled⟩])]
    let os := st.outputs 0
    let os' := (st.setOutputs Output.name id 0 ⟨0, 0, 2, 2⟩).outputs 0
    st.loggers[0]?.map Object.outputs = some ⟨0, 0, 2, 2⟩ ∧
      os' = [⟨"A", .enabled⟩, ⟨"A", .enabled⟩] ∧
      os.map (fun o => ((os.filter fun u => GoString.equalFold id o.name u.name).getLast?).getD o) =
        [⟨"a", .disabled⟩, ⟨"a", .disabled⟩] := by
  decide

/-- `l.SetOutputs(l.GetOutputs()...)` on the logger at `p`, as the logger at `q` sees it when the
outputs of both start at one place of one array: the loop reads each given output from the array
it stores into, and each shared position ends with the first output of its class, which
`GetOutput` returned for its name before the call, not with the last as when the given outputs
lie elsewhere. -/
theorem outputs_setOutputs_self (hv : st.Valid) (hp : st.loggers[p]? = some sypl)
    (hq : st.loggers[q]? = some o) (harr : o.outputs.array = sypl.outputs.array)
    (hoff : o.outputs.offset = sypl.outputs.offset) :
    (st.setOutputs getName fold p sypl.outputs).outputs q =
      ((st.outputs q).take (st.outputs p).length).map (Logger.firstOfClass getName fold (st.outputs p)) ++
        (st.outputs q).drop (st.outputs p).length := by
  obtain ⟨h, hlen⟩ := outputs_setOutputs_eq getName fold hv hp hq sypl.outputs
  rw [h, hlen, State.outputs, State.outputs, read_eq hq, read_eq hp]
  exact read_storeOutputs_self getName fold (hv.outputs sypl (List.mem_iff_getElem?.2 ⟨p, hp⟩)) harr hoff

/-- A logger and the child it made, whose outputs `A`, `a` and `b` fold in two classes: the
child's `SetOutputs` of the parent's outputs leaves `A`, `A`, `b` to both. -/
theorem outputs_setOutputs_self_child :
    let st : State Output := (run Slice.growslice Output.name id
      [.new "api" (.list [⟨"A", .enabled⟩, ⟨"a", .disabled⟩, ⟨"b", .enabled⟩])]).child 0 "db" |>.1
    let sypl : Object := ⟨"db", Level.none, some .empty, ⟨0, 0, 3, 3⟩, .enabled, ⟨0, 0, 0, 0⟩⟩
    let o : Object := ⟨"api", Level.none, some .empty, ⟨0, 0, 3, 3⟩, .enabled, ⟨0, 0, 0, 0⟩⟩
    st.Valid ∧ st.loggers[1]? = some sypl ∧ st.loggers[0]? = some o ∧
      o.outputs.array = sypl.outputs.array ∧ o.outputs.offset = sypl.outputs.offset ∧
      (st.setOutputs Output.name id 1 sypl.outputs).outputs 0 =
        ((st.outputs 0).take (st.outputs 1).length).map (Logger.firstOfClass Output.name id (st.outputs 1)) ++
          (st.outputs 0).drop (st.outputs 1).length ∧
      (st.setOutputs Output.name id 1 sypl.outputs).outputs 0 =
        [⟨"A", .enabled⟩, ⟨"A", .enabled⟩, ⟨"b", .enabled⟩] :=
  have hv : State.Valid ((run Slice.growslice Output.name id
      [.new "api" (.list [⟨"A", .enabled⟩, ⟨"a", .disabled⟩, ⟨"b", .enabled⟩])]).child 0 "db" |>.1) :=
    (valid_run Slice.growslice Output.name id _).child 0 "db"
  ⟨hv, rfl, rfl, rfl, rfl, outputs_setOutputs_self Output.name id hv rfl rfl rfl rfl, by decide⟩

/-! ## Shared outputs -/

/-- A parent and the child it just made share their outputs: `SetOutputs(args...)` on either one,
with a slice `args` in another array than theirs, is `Logger.setOutputs` of the elements of
`args` on the outputs of both. -/
theorem outputs_child_setOutputs (hv : st.Valid) (hp : st.loggers[p]? = some sypl) (name : GoString)
    {args : Slice} (hargs : Slice.Valid st.outputArrays args) (hne : args.array ≠ sypl.outputs.array) :
    let st₁ := st.child p name
    ∀ r ∈ [p, st₁.2], ∀ q ∈ [p, st₁.2],
      (st₁.1.setOutputs getName fold r args).outputs q =
        Logger.setOutputs getName fold (st.outputs p) (Slice.read st.outputArrays args) := by
  intro st₁
  have hplt := (List.getElem?_eq_some_iff.1 hp).1
  have harr₁ : st₁.1.outputArrays = st.outputArrays := by simp only [st₁, child_eq hp]
  have hobj : ∀ r ∈ [p, st₁.2], ∃ o, st₁.1.loggers[r]? = some o ∧ o.outputs = sypl.outputs := by
    simp only [List.mem_cons, List.mem_singleton, List.not_mem_nil, or_false]
    rintro r (rfl | rfl)
    · exact ⟨sypl, (getElem?_child_of_lt hplt name hplt).trans hp, rfl⟩
    · refine ⟨childObject sypl name, ?_, rfl⟩
      simp only [st₁, child_eq hp, List.getElem?_concat_length]
  intro r hr q hq
  obtain ⟨a, ha, hao⟩ := hobj r hr
  obtain ⟨b, hb, hbo⟩ := hobj q hq
  have hread : st₁.1.outputs r = st.outputs p := by
    simp only [State.outputs, read_eq ha, read_eq hp, outputsField, hao, harr₁]
  rw [outputs_setOutputs_of_header getName fold (hv.child p name) ha hb (hbo.trans hao.symm)
    (harr₁ ▸ hargs) (hao ▸ hne), hread, harr₁]

/-- A child of a logger made by `New`, and `SetOutputs` on the child with the outputs of another
logger: the parent writes to the updated output too. -/
theorem outputs_child_setOutputs_api :
    let st : State Output := run Slice.growslice Output.name id
      [.new "api" (.list [⟨"console", .enabled⟩, ⟨"stderr", .enabled⟩]),
        .new "ops" (.list [⟨"Console", .disabled⟩])]
    let sypl : Object := ⟨"api", Level.none, some .empty, ⟨0, 0, 2, 2⟩, .enabled, ⟨0, 0, 0, 0⟩⟩
    let args : Slice := ⟨1, 0, 1, 1⟩
    let st₁ := st.child 0 "db"
    st.Valid ∧ st.loggers[0]? = some sypl ∧ Slice.Valid st.outputArrays args ∧
      args.array ≠ sypl.outputs.array ∧
      (∀ r ∈ [0, st₁.2], ∀ q ∈ [0, st₁.2], (st₁.1.setOutputs Output.name id r args).outputs q =
        Logger.setOutputs Output.name id (st.outputs 0) (Slice.read st.outputArrays args)) ∧
      (st₁.1.setOutputs Output.name id st₁.2 args).outputs 0 =
        [⟨"Console", .disabled⟩, ⟨"stderr", .enabled⟩] :=
  ⟨valid_run Slice.growslice Output.name id _, rfl, by decide, by decide,
    outputs_child_setOutputs Output.name id (valid_run Slice.growslice Output.name id _) rfl "db"
      (by decide) (by decide), by decide⟩

variable (grow : Nat → Nat → Nat)

/-- After `AddOutputs(xs)` on the child, `SetOutputs(args...)` on the parent, with a slice `args`
in another array, reaches the child's first outputs, those it shares with the parent, only when
`xs` fit in the spare capacity of the parent's outputs; otherwise the child's outputs are a copy
the parent no longer writes. The outputs the child added are never replaced. -/
theorem outputs_child_addOutputs_setOutputs (hv : st.Valid) (hp : st.loggers[p]? = some sypl)
    (name : GoString) (xs : List α) {args : Slice} (hargs : Slice.Valid st.outputArrays args)
    (hne : args.array ≠ sypl.outputs.array) :
    let st₁ := st.child p name
    let st₂ := (st₁.1.addOutputs grow st₁.2 xs).setOutputs getName fold p args
    let us := Slice.read st.outputArrays args
    st₂.outputs p = Logger.setOutputs getName fold (st.outputs p) us ∧
      st₂.outputs st₁.2 = (if xs.length ≤ st.room outputsField p
        then Logger.setOutputs getName fold (st.outputs p) us else st.outputs p) ++ xs := by
  intro st₁ st₂ us
  have hplt := (List.getElem?_eq_some_iff.1 hp).1
  have hsv : Slice.Valid st.outputArrays sypl.outputs := hv.outputs sypl (List.mem_iff_getElem?.2 ⟨p, hp⟩)
  have hc : st₁.1.loggers[st₁.2]? = some (childObject sypl name) := by
    simp only [st₁, child_eq hp, List.getElem?_concat_length]
  have hpc : st₁.1.loggers[p]? = some sypl := (getElem?_child_of_lt hplt name hplt).trans hp
  have hne' : p ≠ st₁.2 := by rw [child_snd hplt]; exact Nat.ne_of_lt hplt
  have harr₁ : st₁.1.outputArrays = st.outputArrays := by simp only [st₁, child_eq hp]
  let ap := Slice.append grow st.outputArrays sypl.outputs xs
  have hv' : (st₁.1.addOutputs grow st₁.2 xs).Valid := (hv.child p name).addOutputs grow _ xs
  have hp' : (st₁.1.addOutputs grow st₁.2 xs).loggers[p]? = some sypl := by
    rw [addOutputs, loggers_appendTo grow hc, List.getElem?_set_ne hne'.symm, hpc]
  have hc' : (st₁.1.addOutputs grow st₁.2 xs).loggers[st₁.2]? =
      some { childObject sypl name with outputs := ap.2 } := by
    rw [addOutputs, loggers_appendTo grow hc, List.getElem?_set_self (List.getElem?_eq_some_iff.1 hc).1]
    simp only [outputsField, childObject, ap, harr₁]
  have harr : (st₁.1.addOutputs grow st₁.2 xs).outputArrays = ap.1 :=
    (arrays_appendTo grow outputsField_lawful hc xs).trans (by simp only [outputsField, childObject, ap, harr₁])
  have hargs' : Slice.Valid (st₁.1.addOutputs grow st₁.2 xs).outputArrays args :=
    harr ▸ Slice.Valid.of_append grow xs hsv hargs
  have hus : Slice.read (st₁.1.addOutputs grow st₁.2 xs).outputArrays args = us := by
    rw [harr]
    exact Slice.read_append_of_disjoint grow xs hsv hargs (.inl hne)
  have hpar : (st₁.1.addOutputs grow st₁.2 xs).outputs p = st.outputs p := by
    rw [State.outputs, State.outputs, read_eq hp', read_eq hp]
    dsimp only [outputsField]
    rw [harr]
    exact Slice.read_append_of_disjoint grow xs hsv hsv (.inr (.inr (.inl le_rfl)))
  have hchild : (st₁.1.addOutputs grow st₁.2 xs).outputs st₁.2 = st.outputs p ++ xs := by
    rw [State.outputs, State.outputs, read_eq hc', read_eq hp]
    dsimp only [outputsField]
    rw [harr]
    exact Slice.read_append_self grow xs hsv
  refine ⟨by rw [outputs_setOutputs_of_header getName fold hv' hp' hp' rfl hargs' hne, hus, hpar], ?_⟩
  rw [room_eq hp]
  dsimp only [outputsField]
  have := hsv.len_le
  by_cases hfit : sypl.outputs.len + xs.length ≤ sypl.outputs.cap
  · have h2 : ap.2 = { sypl.outputs with len := sypl.outputs.len + xs.length } := by
      simp [ap, Slice.append, hfit]
    rw [if_pos (by omega), outputs_setOutputs getName fold hv' hp' hc' (by simp [h2]) (by simp [h2])
      hargs' hne, hus, hchild, hpar, List.take_left, List.drop_left]
  · have h2 : ap.2.array = st.outputArrays.length := by simp [ap, Slice.append, hfit]
    rw [if_neg (by omega), outputs_setOutputs_of_ne getName fold hv' hp' hc'
      (by simp only [h2]; exact (Nat.ne_of_lt hsv.array_lt).symm), hchild]

/-- With Go's growth, a parent that added a third output has room for a fourth: the child's
`AddOutputs` writes in place, and the parent's `SetOutputs(o)` then reaches the child. -/
theorem outputs_child_addOutputs_setOutputs_api :
    let st : State Output := run Slice.growslice Output.name id
      [.new "api" (.list [⟨"console", .enabled⟩, ⟨"stderr", .enabled⟩]), .addOutputs 0 [⟨"file", .enabled⟩],
        .new "ops" (.list [⟨"Console", .disabled⟩])]
    let sypl : Object := ⟨"api", Level.none, some .empty, ⟨1, 0, 3, 4⟩, .enabled, ⟨0, 0, 0, 0⟩⟩
    let xs : List Output := [⟨"es", .enabled⟩]
    let args : Slice := ⟨2, 0, 1, 1⟩
    let st₁ := st.child 0 "db"
    let st₂ := (st₁.1.addOutputs Slice.growslice st₁.2 xs).setOutputs Output.name id 0 args
    let us := Slice.read st.outputArrays args
    st.Valid ∧ st.loggers[0]? = some sypl ∧ Slice.Valid st.outputArrays args ∧
      args.array ≠ sypl.outputs.array ∧
      (st₂.outputs 0 = Logger.setOutputs Output.name id (st.outputs 0) us ∧
        st₂.outputs st₁.2 = (if xs.length ≤ st.room outputsField 0
          then Logger.setOutputs Output.name id (st.outputs 0) us else st.outputs 0) ++ xs) ∧
      st₂.outputs st₁.2 =
        [⟨"Console", .disabled⟩, ⟨"stderr", .enabled⟩, ⟨"file", .enabled⟩, ⟨"es", .enabled⟩] :=
  ⟨valid_run Slice.growslice Output.name id _, rfl, by decide, by decide,
    outputs_child_addOutputs_setOutputs Output.name id Slice.growslice
      (valid_run Slice.growslice Output.name id _) rfl "db" _ (by decide) (by decide), by decide⟩

/-- `New(name, xs...)` with the outputs of the logger at `p` as `xs` makes a logger that shares
them, as a child does: `SetOutputs(args...)` on either one, with a slice `args` in another array,
is `Logger.setOutputs` of the elements of `args` on the outputs of both. -/
theorem outputs_new_spread_setOutputs (hv : st.Valid) (hp : st.loggers[p]? = some sypl)
    (name : GoString) {args : Slice} (hargs : Slice.Valid st.outputArrays args)
    (hne : args.array ≠ sypl.outputs.array) :
    let st₁ := st.step grow getName fold (.new name (.spread sypl.outputs))
    ∀ r ∈ [p, st.loggers.length], ∀ q ∈ [p, st.loggers.length],
      (st₁.setOutputs getName fold r args).outputs q =
        Logger.setOutputs getName fold (st.outputs p) (Slice.read st.outputArrays args) := by
  intro st₁
  have hs : Slice.Valid st.outputArrays sypl.outputs := hv.outputs sypl (List.mem_iff_getElem?.2 ⟨p, hp⟩)
  have hst : st₁ = (st.new name sypl.outputs).1 := by simp only [st₁, State.step, callWith, if_pos hs]
  have hobj : ∀ r ∈ [p, st.loggers.length], ∃ o, st₁.loggers[r]? = some o ∧ o.outputs = sypl.outputs := by
    simp only [List.mem_cons, List.mem_singleton, List.not_mem_nil, or_false, hst, new]
    rintro r (rfl | rfl)
    · exact ⟨sypl, (List.getElem?_append_left (List.getElem?_eq_some_iff.1 hp).1).trans hp, rfl⟩
    · exact ⟨_, List.getElem?_concat_length .., rfl⟩
  intro r hr q hq
  obtain ⟨a, ha, hao⟩ := hobj r hr
  obtain ⟨b, hb, hbo⟩ := hobj q hq
  have hread : st₁.outputs r = st.outputs p := by
    rw [State.outputs, State.outputs, read_eq ha, read_eq hp]
    simp only [outputsField, hao, hst, new]
  rw [outputs_setOutputs_of_header getName fold (hst ▸ hv.new name hs) ha hb (hbo.trans hao.symm)
    (hst ▸ hargs) (hao ▸ hne), hread, hst]
  rfl

/-- `New("db", api.GetOutputs()...)`, and `SetOutputs` on `api` with the outputs of a third
logger: `db` writes to the updated output too. -/
theorem outputs_new_spread_setOutputs_api :
    let st : State Output := run Slice.growslice Output.name id
      [.new "api" (.list [⟨"console", .enabled⟩, ⟨"stderr", .enabled⟩]),
        .new "ops" (.list [⟨"Console", .disabled⟩])]
    let sypl : Object := ⟨"api", Level.none, some .empty, ⟨0, 0, 2, 2⟩, .enabled, ⟨0, 0, 0, 0⟩⟩
    let args : Slice := ⟨1, 0, 1, 1⟩
    let st₁ := st.step Slice.growslice Output.name id (.new "db" (.spread sypl.outputs))
    st.Valid ∧ st.loggers[0]? = some sypl ∧ Slice.Valid st.outputArrays args ∧
      args.array ≠ sypl.outputs.array ∧
      (∀ r ∈ [0, st.loggers.length], ∀ q ∈ [0, st.loggers.length],
        (st₁.setOutputs Output.name id r args).outputs q =
          Logger.setOutputs Output.name id (st.outputs 0) (Slice.read st.outputArrays args)) ∧
      (st₁.setOutputs Output.name id 0 args).outputs 2 = [⟨"Console", .disabled⟩, ⟨"stderr", .enabled⟩] :=
  ⟨valid_run Slice.growslice Output.name id _, rfl, by decide, by decide,
    outputs_new_spread_setOutputs Output.name id Slice.growslice
      (valid_run Slice.growslice Output.name id _) rfl "db" (by decide) (by decide), by decide⟩

end Variadic

/-! ## What `process` sees -/

section View

variable (grow : Nat → Nat → Nat) {st : State Output} {p : Nat}

theorem view_eq {sypl : Object} (hp : st.loggers[p]? = some sypl) :
    st.view p = some ⟨sypl.name, sypl.defaultIoWriterLevel, sypl.fields, st.outputs p, sypl.status,
      some (st.tags p)⟩ := by
  simp only [view, hp, Option.map_some', outputs, tags, read_eq hp]
  rfl

theorem exists_view (hp : p < st.loggers.length) :
    ∃ sypl, st.view p = some sypl ∧ sypl.outputs = st.outputs p ∧ sypl.tags = some (st.tags p) :=
  ⟨_, view_eq (List.getElem?_eq_getElem hp), rfl, rfl⟩

/-- After `SetTags(x)` on a parent whose tags have room and then `SetTags(y)` on the child it
made, every message the parent keeps carries `y`, and carries `x` only when it had it. -/
theorem prepare_tags_child (hv : st.Valid) (hp : p < st.loggers.length)
    (hroom : 0 < st.room tagsField p) (name : GoString) {x y : GoString} (hxy : x ≠ y)
    (hx : x ∉ st.tags p) :
    let st₁ := st.child p name
    let st₂ := (st₁.1.setTags grow p [x]).setTags grow st₁.2 [y]
    ∃ sypl, st₂.view p = some sypl ∧ ∀ env m m', sypl.prepare env m = some m' →
      y ∈ m'.tags ∧ (x ∈ m'.tags ↔ x ∈ m.tags) := by
  intro st₁ st₂
  have htags : st₂.tags p = st.tags p ++ [y] := by
    have h := (read_child_appendTo_appendTo grow tagsField_lawful hp name (hv.child p name).tags
      (fun _ => rfl) [x] [y]).2
    rw [room_child tagsField hp name hp, if_pos ⟨hroom, hroom⟩] at h
    exact h.trans (congrArg (· ++ [y]) (tags_child hv hp name hp))
  have hlen : p < st₂.loggers.length := by
    simp only [st₂, st₁, setTags, length_appendTo, child_eq (List.getElem?_eq_getElem hp),
      List.length_append]
    omega
  obtain ⟨sypl, hview, -, hsypl⟩ := exists_view hlen
  refine ⟨sypl, hview, fun env m m' h => ?_⟩
  simp only [Logger.mem_prepare_tags h hsypl, htags, List.mem_append, List.mem_singleton, or_true,
    true_and]
  exact ⟨fun h => h.resolve_right fun h => (h.resolve_right hxy) |> hx, .inl⟩

/-- The child's tag on a parent with room for one more tag, with Go's growth. -/
theorem prepare_tags_child_api :
    let st : State Output := run Slice.growslice Output.name id
      [.new "api" (.list []), .setTags 0 ["a"], .setTags 0 ["b"], .setTags 0 ["c"]]
    let x : GoString := "x"
    let y : GoString := "y"
    let st₁ := st.child 0 "db"
    let st₂ := (st₁.1.setTags Slice.growslice 0 [x]).setTags Slice.growslice st₁.2 [y]
    st.Valid ∧ 0 < st.loggers.length ∧ 0 < st.room tagsField 0 ∧ x ≠ y ∧ x ∉ st.tags 0 ∧
      ∃ sypl, st₂.view 0 = some sypl ∧ ∀ env m m', sypl.prepare env m = some m' →
        y ∈ m'.tags ∧ (x ∈ m'.tags ↔ x ∈ m.tags) :=
  ⟨valid_run Slice.growslice Output.name id _, by decide, by decide, by decide, by decide,
    prepare_tags_child Slice.growslice (valid_run Slice.growslice Output.name id _) (by decide)
      (by decide) "db" (by decide) (by decide)⟩

/-- After `AddOutputs(o₁)` on a parent whose outputs have room and then `AddOutputs(o₂)` on the
child it made, the parent's outputs end with `o₂` where it added `o₁`: `processOutputs` on the
parent hands the message to `o₂` whenever `o₂` is enabled and named in the routing, and never
to `o₁`. -/
theorem processOutputs_child (hv : st.Valid) (hp : p < st.loggers.length)
    (hroom : 0 < st.room outputsField p) (name : GoString) {o₁ o₂ : Output} (ho : o₁ ≠ o₂)
    (ho₁ : o₁ ∉ st.outputs p) :
    let st₁ := st.child p name
    let st₂ := (st₁.1.addOutputs grow p [o₁]).addOutputs grow st₁.2 [o₂]
    ∃ sypl, st₂.view p = some sypl ∧ sypl.outputs = st.outputs p ++ [o₂] ∧
      ∀ env m names, (∀ i c, (i, c) ∈ sypl.processOutputs env m names → sypl.outputs[i]? ≠ some o₁) ∧
        (((st.outputs p).length, sypl.stamp env m o₂) ∈ sypl.processOutputs env m names ↔
          o₂.status = .enabled ∧ GoString.contains names o₂.name = true) := by
  intro st₁ st₂
  have houts : st₂.outputs p = st.outputs p ++ [o₂] := by
    rw [(outputs_child_addOutputs_addOutputs grow hv hp name [o₁] [o₂]).2, if_pos ⟨hroom, hroom⟩]
    rfl
  have hlen : p < st₂.loggers.length := by
    simp only [st₂, st₁, addOutputs, length_appendTo, child_eq (List.getElem?_eq_getElem hp),
      List.length_append]
    omega
  obtain ⟨sypl, hview, hsypl, -⟩ := exists_view hlen
  rw [houts] at hsypl
  refine ⟨sypl, hview, hsypl, fun env m names => ⟨fun i c _ hi => ?_, ?_⟩⟩
  · rcases List.mem_append.1 (List.mem_iff_getElem?.2 ⟨i, hsypl ▸ hi⟩) with h | h
    · exact ho₁ h
    · exact ho (List.mem_singleton.1 h)
  · simp only [Logger.mem_processOutputs, hsypl, List.getElem?_concat_length]
    constructor
    · rintro ⟨o', ho', he, hc, -⟩
      cases Option.some.inj ho'
      exact ⟨he, hc⟩
    · rintro ⟨he, hc⟩
      exact ⟨o₂, rfl, he, hc, rfl⟩

/-- The child's output on a parent with room for one more output, with Go's growth. -/
theorem processOutputs_child_api :
    let st : State Output := run Slice.growslice Output.name id
      [.new "api" (.list [⟨"console", .enabled⟩, ⟨"stderr", .enabled⟩]), .addOutputs 0 [⟨"file", .enabled⟩]]
    let o₁ : Output := ⟨"es", .enabled⟩
    let o₂ : Output := ⟨"audit", .enabled⟩
    let st₁ := st.child 0 "db"
    let st₂ := (st₁.1.addOutputs Slice.growslice 0 [o₁]).addOutputs Slice.growslice st₁.2 [o₂]
    st.Valid ∧ 0 < st.loggers.length ∧ 0 < st.room outputsField 0 ∧ o₁ ≠ o₂ ∧ o₁ ∉ st.outputs 0 ∧
      ∃ sypl, st₂.view 0 = some sypl ∧ sypl.outputs = st.outputs 0 ++ [o₂] ∧
        ∀ env m names, (∀ i c, (i, c) ∈ sypl.processOutputs env m names → sypl.outputs[i]? ≠ some o₁) ∧
          (((st.outputs 0).length, sypl.stamp env m o₂) ∈ sypl.processOutputs env m names ↔
            o₂.status = .enabled ∧ GoString.contains names o₂.name = true) :=
  ⟨valid_run Slice.growslice Output.name id _, by decide, by decide, by decide, by decide,
    processOutputs_child Slice.growslice (valid_run Slice.growslice Output.name id _) (by decide)
      (by decide) "db" (by decide) (by decide)⟩

end View

end State


/-! ## `NewDefault` -/

section NewDefault

variable {F : Type}

/-- The nil `processor.IProcessor` that `append` leaves past a slice's length; no slice reads it. -/
instance : Inhabited (Message F → Message F) := ⟨id⟩

/-- The processors that `NewDefault` hands to its two outputs: `consoleProcessors := processors`
and `append(consoleProcessors, MuteBasedOnLevel(Fatal, Error))` for `Console`, then
`StdErr(processors...)`, whose first statement is
`processors = append(processors, PrintOnlyAtLevel(Fatal, Error))`. The arrays after both appends,
the header passed to `Console`, and the one `StdErr` passes to `New`. -/
def newDefaultProcessors (grow : Nat → Nat → Nat) (arrays : Arrays (Message F → Message F))
    (processors : Slice) : Arrays (Message F → Message F) × Slice × Slice :=
  let consoleProcessors := Slice.append grow arrays processors
    [Processor.muteBasedOnLevel [Level.fatal, Level.error]]
  let stdErr := Slice.append grow consoleProcessors.1 processors
    [Processor.printOnlyAtLevel [Level.fatal, Level.error]]
  (stdErr.1, consoleProcessors.2, stdErr.2)

/-- When the caller's processors have spare capacity, `StdErr` writes its processor where
`NewDefault` put the console's: the slice `Console` was given ends with `PrintOnlyAtLevel(Fatal,
Error)`, which mutes every message in range but those at `Fatal` and `Error`, the reverse of
`MuteBasedOnLevel(Fatal, Error)`, which it ends with otherwise. -/
theorem newDefaultProcessors_console (grow : Nat → Nat → Nat) {arrays : Arrays (Message F → Message F)}
    {processors : Slice} (hs : Slice.Valid arrays processors) :
    let r := newDefaultProcessors grow arrays processors
    Slice.read r.1 r.2.2 = Slice.read arrays processors ++
        [Processor.printOnlyAtLevel [Level.fatal, Level.error]] ∧
      ∃ last, Slice.read r.1 r.2.1 = Slice.read arrays processors ++ [last] ∧
        ∀ m : Message F, Level.none ≤ m.level ∧ m.level ≤ Level.trace →
          last m = if processors.len < processors.cap
            then (if m.level ∈ [Level.fatal, Level.error] then m else m.setFlag .mute)
            else (if m.level ∈ [Level.fatal, Level.error] then m.setFlag .mute else m) := by
  obtain ⟨h₁, h₂⟩ := Slice.read_append_append grow
    [Processor.muteBasedOnLevel [Level.fatal, Level.error]] hs
    [Processor.printOnlyAtLevel [Level.fatal, Level.error]]
  refine ⟨h₁, if processors.len < processors.cap then Processor.printOnlyAtLevel [Level.fatal, Level.error]
    else Processor.muteBasedOnLevel [Level.fatal, Level.error], ?_, fun m hl => ?_⟩
  · refine h₂.trans ?_
    simp only [List.length_singleton, Nat.add_one_le_iff, and_self]
    split_ifs <;> rfl
  · have h : Processor.listsLevel [Level.fatal, Level.error] m =
        decide (m.level ∈ [Level.fatal, Level.error]) := by
      rw [Bool.eq_iff_iff, Processor.listsLevel_iff hl, decide_eq_true_iff]
    split_ifs with hc hm hm <;> simp [Processor.printOnlyAtLevel, Processor.muteBasedOnLevel, h, hm]

/-- A caller's slice of one processor with room for a second. -/
theorem newDefaultProcessors_console_room :
    let arrays : Arrays (Message Fields → Message Fields) := [[Processor.prefixer "> ", id]]
    let processors : Slice := ⟨0, 0, 1, 2⟩
    let r := newDefaultProcessors Slice.growslice arrays processors
    Slice.Valid arrays processors ∧
      (Slice.read r.1 r.2.2 = Slice.read arrays processors ++
          [Processor.printOnlyAtLevel [Level.fatal, Level.error]] ∧
        ∃ last, Slice.read r.1 r.2.1 = Slice.read arrays processors ++ [last] ∧
          ∀ m : Message Fields, Level.none ≤ m.level ∧ m.level ≤ Level.trace →
            last m = if processors.len < processors.cap
              then (if m.level ∈ [Level.fatal, Level.error] then m else m.setFlag .mute)
              else (if m.level ∈ [Level.fatal, Level.error] then m.setFlag .mute else m)) :=
  ⟨by decide, newDefaultProcessors_console Slice.growslice (by decide)⟩

end NewDefault

end Loggers

end Sypl
