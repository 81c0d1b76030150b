import Sypl.Loggers

/-!
# Loggers as values

`Logger.lean` reads a logger as a value that owns its lists, and `Loggers.lean` keeps the slices
Go keeps. **The value model** (`valueStep`, `valueRun`) is what a caller of the package expects:
`New` adds a logger, and each setter changes its own logger. Its programs list the outputs of
every call (`ValueOp`).

**The refinement.** The two agree on every program whose calls list their outputs and that makes
no child logger (`view_run`). `New(name, o₁, …, oₙ)` gets a new array for its outputs and makes
one for its tags, `SetOutputs(o₁, …, oₙ)` reads its outputs from a new array, and `append` writes
in place only into the array of the logger that calls it or allocates a new one, so no two
loggers ever share an array (`Exclusive`). Under that invariant each call changes its own
logger's value and no other (`view_setTags`, `view_addOutputs`, `view_setOutputs`,
`view_newOutputs`), and a run keeps the loggers equal to their values (`Simulates.step`).

Where a program passes a slice on, the two part: the children of `sypl.New(name)` share their
parent's arrays (`tags_child_setTags_setTags`, `outputs_child_setOutputs`), so do two loggers made
by `New` from one slice (`outputs_new_spread_setOutputs`), and `l.SetOutputs(l.GetOutputs()...)`
reads the outputs it replaces (`outputs_setOutputs_self`).
-/

namespace Sypl.Loggers

variable {α : Type}

/-- The calls of a program whose outputs are listed, `New(name, o₁, …, oₙ)` and
`SetOutputs(o₁, …, oₙ)`, so that each call gets a new array, and that make no child logger. -/
inductive ValueOp where
  | new (name : GoString) (outputs : List Output)
  | setTags (p : Nat) (tags : List GoString)
  | addOutputs (p : Nat) (outputs : List Output)
  | setOutputs (p : Nat) (outputs : List Output)

/-- The call as the program makes it. -/
def ValueOp.toOp : ValueOp → Op Output
  | .new name outputs => .new name (.list outputs)
  | .setTags p tags => .setTags p tags
  | .addOutputs p outputs => .addOutputs p outputs
  | .setOutputs p outputs => .setOutputs p (.list outputs)

/-- The loggers of a program as values, each with lists of its own: `New` adds a logger, and each
setter changes the lists of its logger. -/
def valueStep (fold : Char → Char) (loggers : List Logger) : ValueOp → List Logger
  | .new name outputs => loggers ++ [Logger.new name outputs]
  | .setTags p tags => loggers.modify (fun sypl => { sypl with tags := some (sypl.tags.getD [] ++ tags) }) p
  | .addOutputs p outputs => loggers.modify (·.addOutputs outputs) p
  | .setOutputs p outputs => loggers.modify (fun sypl =>
      { sypl with outputs := Logger.setOutputs Output.name fold sypl.outputs outputs }) p

/-- A program's loggers as values after its calls, from none. -/
def valueRun (fold : Char → Char) (ops : List ValueOp) : List Logger :=
  ops.foldl (valueStep fold) []

/-- No two loggers' slices of one field lie in one array. -/
def Exclusive (header : Object → Slice) (loggers : List Object) : Prop :=
  ∀ (i j : Nat) (a b : Object), loggers[i]? = some a → loggers[j]? = some b → (header a).array = (header b).array → i = j

section Exclusive

variable {header : Object → Slice} {l : List Object} {p : Nat} {o o' : Object}

theorem Exclusive.set (hx : Exclusive header l)
    (hnew : ∀ (j : Nat) (b : Object), j ≠ p → l[j]? = some b → (header b).array ≠ (header o').array) :
    Exclusive header (l.set p o') := by
  intro i j a b ha hb hab
  rw [List.getElem?_set] at ha hb
  split_ifs at ha hb <;> first
    | omega
    | (cases ha; exact absurd hab.symm (hnew j b (Ne.symm (by omega)) hb))
    | (cases hb; exact absurd hab (hnew i a (Ne.symm (by omega)) ha))
    | exact hx i j a b ha hb hab

theorem Exclusive.set_self (hx : Exclusive header l) (hp : l[p]? = some o) (heq : header o' = header o) :
    Exclusive header (l.set p o') :=
  hx.set fun j b hj hb h => hj (hx j p b o hb hp (heq ▸ h))

theorem Exclusive.append (hx : Exclusive header l)
    (hnew : ∀ (j : Nat) (b : Object), l[j]? = some b → (header b).array ≠ (header o').array) :
    Exclusive header (l ++ [o']) := by
  have hlast : ∀ {k c}, (l ++ [o'])[k]? = some c → l.length ≤ k → k = l.length ∧ c = o' := by
    intro k c hk hle
    rw [List.getElem?_append_right hle] at hk
    obtain hk0 | hk0 := Nat.eq_zero_or_pos (k - l.length)
    · rw [hk0] at hk
      exact ⟨by omega, (Option.some.inj hk).symm⟩
    · rw [List.getElem?_eq_none (by rw [List.length_singleton]; omega)] at hk
      cases hk
  intro i j a b ha hb hab
  rcases lt_or_ge i l.length with hi | hi <;> rcases lt_or_ge j l.length with hj | hj
  · rw [List.getElem?_append_left hi] at ha
    rw [List.getElem?_append_left hj] at hb
    exact hx i j a b ha hb hab
  · rw [List.getElem?_append_left hi] at ha
    obtain ⟨-, rfl⟩ := hlast hb hj
    exact absurd hab (hnew i a ha)
  · rw [List.getElem?_append_left hj] at hb
    obtain ⟨-, rfl⟩ := hlast ha hi
    exact absurd hab.symm (hnew j b hb)
  · rw [(hlast ha hi).1, (hlast hb hj).1]

end Exclusive

namespace State

section Values

variable (grow : Nat → Nat → Nat) {β : Type} [Inhabited β] {f : Field α β} (hf : f.Lawful)
  {st : State α} {p q : Nat}

include hf in
theorem read_appendTo_of_ne (hv : FieldValid f st) (hx : Exclusive f.header st.loggers) (hpq : p ≠ q)
    (xs : List β) : (st.appendTo grow f p xs).read f q = st.read f q := by
  cases hp : st.loggers[p]? with
  | none => simp only [appendTo, hp]
  | some sypl =>
    have hq' : (st.appendTo grow f p xs).loggers[q]? = st.loggers[q]? := by
      rw [loggers_appendTo grow hp, List.getElem?_set_ne hpq]
    cases hq : st.loggers[q]? with
    | none => simp only [read, hq', hq]
    | some o =>
      rw [read_eq (hq'.trans hq), read_eq hq, arrays_appendTo grow hf hp]
      exact Slice.read_append_of_disjoint grow xs (hv sypl (List.mem_iff_getElem?.2 ⟨p, hp⟩))
        (hv o (List.mem_iff_getElem?.2 ⟨q, hq⟩)) (.inl fun h => hpq (hx p q sypl o hp hq h.symm))

include hf in
theorem exclusive_appendTo (hv : FieldValid f st) (hx : Exclusive f.header st.loggers) (p : Nat)
    (xs : List β) : Exclusive f.header (st.appendTo grow f p xs).loggers := by
  cases hp : st.loggers[p]? with
  | none => simpa only [appendTo, hp] using hx
  | some sypl =>
    rw [loggers_appendTo grow hp]
    refine hx.set fun j b hj hb => ?_
    rw [hf.header_setHeader, Slice.array_append grow]
    split_ifs
    · exact fun h => hj (hx j p b sypl hb hp h)
    · exact Nat.ne_of_lt (hv b (List.mem_iff_getElem?.2 ⟨j, hb⟩)).array_lt

/-- An append to the field `f` keeps the headers of a field `h` that `f` does not write. -/
theorem exclusive_appendTo_of_header (h : Object → Slice) (hh : ∀ o s, h (f.setHeader o s) = h o)
    (hx : Exclusive h st.loggers) (p : Nat) (xs : List β) :
    Exclusive h (st.appendTo grow f p xs).loggers := by
  cases hp : st.loggers[p]? with
  | none => simpa only [State.appendTo, hp] using hx
  | some sypl =>
    rw [loggers_appendTo grow hp]
    exact hx.set_self hp (hh _ _)

end Values

section Views

variable (grow : Nat → Nat → Nat) {st : State Output} {p q : Nat} {name : GoString}
  {outputs : List Output}

/-- `SetTags` changes no outputs. -/
theorem outputs_setTags (p : Nat) (tags : List GoString) (q : Nat) :
    (st.setTags grow p tags).outputs q = st.outputs q :=
  read_appendTo_of_other grow outputsField_lawful (fun _ _ => rfl) (fun _ _ => rfl) p tags q

/-- `AddOutputs` changes no tags. -/
theorem tags_addOutputs (p : Nat) (outputs : List Output) (q : Nat) :
    (st.addOutputs grow p outputs).tags q = st.tags q :=
  read_appendTo_of_other grow tagsField_lawful (fun _ _ => rfl) (fun _ _ => rfl) p outputs q

/-- `SetTags` on the logger at `p` as values: when no two loggers share an array of tags, it
changes the tags of that logger and nothing else. -/
theorem view_setTags (hv : st.Valid) (hx : Exclusive Object.tags st.loggers) (p : Nat)
    (tags : List GoString) (q : Nat) :
    (st.setTags grow p tags).view q =
      (fun sypl => if p = q then { sypl with tags := some (sypl.tags.getD [] ++ tags) } else sypl) <$>
        st.view q := by
  cases hp : st.loggers[p]? with
  | none =>
    simp only [setTags, State.appendTo, hp]
    rcases eq_or_ne p q with rfl | hpq
    · simp only [view, hp, Option.map_none', Option.map_eq_map]
    · simp only [hpq, if_false, Option.map_eq_map, Option.map_id']
  | some sypl =>
    rcases eq_or_ne p q with rfl | hpq
    · have hplt := (List.getElem?_eq_some_iff.1 hp).1
      have h' : (st.setTags grow p tags).loggers[p]? =
          some ((tagsField : Field Output GoString).setHeader sypl
            (Slice.append grow st.tagArrays sypl.tags tags).2) := by
        rw [setTags, loggers_appendTo grow hp, List.getElem?_set_self hplt]
        rfl
      rw [view_eq h', view_eq hp, outputs_setTags, State.tags, State.tags, setTags,
        read_appendTo_self grow tagsField_lawful hv.tags hplt]
      simp only [Option.map_eq_map, Option.map_some', if_true, Option.getD_some]
      rfl
    · have hq' : (st.setTags grow p tags).loggers[q]? = st.loggers[q]? := by
        rw [setTags, loggers_appendTo grow hp, List.getElem?_set_ne hpq]
      cases hq : st.loggers[q]? with
      | none => simp only [view, hq', hq, Option.map_none', Option.map_eq_map]
      | some o =>
        rw [view_eq (hq'.trans hq), view_eq hq, outputs_setTags, State.tags, State.tags, setTags,
          read_appendTo_of_ne grow tagsField_lawful hv.tags hx hpq]
        simp only [hpq, if_false, Option.map_eq_map, Option.map_some']

/-- `AddOutputs` on the logger at `p` as values: when no two loggers share an array of outputs,
it changes the outputs of that logger and nothing else. -/
theorem view_addOutputs (hv : st.Valid) (hx : Exclusive Object.outputs st.loggers) (p : Nat)
    (outputs : List Output) (q : Nat) :
    (st.addOutputs grow p outputs).view q =
      (fun sypl => if p = q then sypl.addOutputs outputs else sypl) <$> st.view q := by
  cases hp : st.loggers[p]? with
  | none =>
    simp only [addOutputs, State.appendTo, hp]
    rcases eq_or_ne p q with rfl | hpq
    · simp only [view, hp, Option.map_none', Option.map_eq_map]
    · simp only [hpq, if_false, Option.map_eq_map, Option.map_id']
  | some sypl =>
    rcases eq_or_ne p q with rfl | hpq
    · have hplt := (List.getElem?_eq_some_iff.1 hp).1
      have h' : (st.addOutputs grow p outputs).loggers[p]? =
          some ((outputsField : Field Output Output).setHeader sypl
            (Slice.append grow st.outputArrays sypl.outputs outputs).2) := by
        rw [addOutputs, loggers_appendTo grow hp, List.getElem?_set_self hplt]
        rfl
      rw [view_eq h', view_eq hp, tags_addOutputs, State.outputs, State.outputs, addOutputs,
        read_appendTo_self grow outputsField_lawful hv.outputs hplt]
      simp only [Option.map_eq_map, Option.map_some', if_true]
      rfl
    · have hq' : (st.addOutputs grow p outputs).loggers[q]? = st.loggers[q]? := by
        rw [addOutputs, loggers_appendTo grow hp, List.getElem?_set_ne hpq]
      cases hq : st.loggers[q]? with
      | none => simp only [view, hq', hq, Option.map_none', Option.map_eq_map]
      | some o =>
        rw [view_eq (hq'.trans hq), view_eq hq, tags_addOutputs, State.outputs, State.outputs,
          addOutputs, read_appendTo_of_ne grow outputsField_lawful hv.outputs hx hpq]
        simp only [hpq, if_false, Option.map_eq_map, Option.map_some']

/-- A new array, the one a call that lists its outputs makes, changes no logger. -/
theorem view_alloc (hv : st.Valid) (xs : List Output) (q : Nat) :
    ({ st with outputArrays := (Slice.alloc st.outputArrays xs).1 } : State Output).view q = st.view q := by
  cases hq : st.loggers[q]? with
  | none => simp only [view, hq, Option.map_none']
  | some o =>
    have ho : Slice.Valid st.outputArrays o.outputs := hv.outputs o (List.mem_iff_getElem?.2 ⟨q, hq⟩)
    simp only [view, hq, Option.map_some', Slice.read_alloc ho]

/-- `SetOutputs(args...)` on the logger at `p` as values, when `args` lies apart from the outputs of
every logger and no two loggers share an array of outputs: it sets the outputs of that logger and
nothing else. -/
theorem view_setOutputs_apart (fold : Char → Char) (hv : st.Valid)
    (hx : Exclusive Object.outputs st.loggers) {args : Slice} (hargs : Slice.Valid st.outputArrays args)
    (hne : ∀ o ∈ st.loggers, args.array ≠ o.outputs.array) (p q : Nat) :
    (st.setOutputs Output.name fold p args).view q =
      (fun sypl => if p = q then
        { sypl with outputs := Logger.setOutputs Output.name fold sypl.outputs (Slice.read st.outputArrays args) }
        else sypl) <$> st.view q := by
  have hl : (st.setOutputs Output.name fold p args).loggers = st.loggers :=
    loggers_setOutputs Output.name fold p args
  cases hq : st.loggers[q]? with
  | none => simp only [view, hl, hq, Option.map_none', Option.map_eq_map]
  | some o =>
    rw [view_eq (hl.symm ▸ hq), view_eq hq, tags_setOutputs]
    cases hp : st.loggers[p]? with
    | none =>
      have hpq : p ≠ q := fun h => by rw [h, hq] at hp; cases hp
      simp only [State.setOutputs, hp, hpq, if_false, Option.map_eq_map, Option.map_some']
    | some sypl =>
      rcases eq_or_ne p q with rfl | hpq
      · rw [outputs_setOutputs_of_header Output.name fold hv hp hp rfl hargs
          (hne sypl (List.mem_iff_getElem?.2 ⟨p, hp⟩))]
        simp only [Option.map_eq_map, Option.map_some', if_true]
      · rw [outputs_setOutputs_of_ne Output.name fold hv hp hq
          (fun h => hpq (hx p q sypl o hp hq h.symm)) args]
        simp only [hpq, if_false, Option.map_eq_map, Option.map_some']

/-- `SetOutputs(o₁, …, oₙ)` on the logger at `p` as values: the new array of the call lies apart
from every logger's outputs, and when no two loggers share an array of outputs the call sets the
outputs of that logger and nothing else. -/
theorem view_setOutputs (fold : Char → Char) (hv : st.Valid) (hx : Exclusive Object.outputs st.loggers)
    (p : Nat) (outputs : List Output) (q : Nat) :
    (st.step grow Output.name fold (.setOutputs p (.list outputs))).view q =
      (fun sypl => if p = q then
        { sypl with outputs := Logger.setOutputs Output.name fold sypl.outputs outputs } else sypl) <$>
        st.view q := by
  have hv' : ({ st with outputArrays := (Slice.alloc st.outputArrays outputs).1 } : State Output).Valid :=
    ⟨hv.tags, fun o ho => (hv.outputs o ho).of_alloc outputs⟩
  have h := view_setOutputs_apart fold hv' hx (Slice.Valid.alloc _ _)
    (fun o ho => (Nat.ne_of_lt (hv.outputs o ho).array_lt).symm) p q
  rw [Slice.read_alloc_self, view_alloc hv] at h
  exact h

theorem step_new (fold : Char → Char) (name : GoString) (outputs : List Output) :
    st.step grow Output.name fold (.new name (.list outputs)) = ⟨st.outputArrays ++ [outputs],
      st.tagArrays ++ [[]], st.loggers ++ [⟨name, Level.none, some .empty, ⟨st.outputArrays.length, 0,
        outputs.length, outputs.length⟩, .enabled, ⟨st.tagArrays.length, 0, 0, 0⟩⟩]⟩ := rfl

/-- `New(name, o₁, …, oₙ)` adds the logger `Logger.new name outputs` after the others and
changes none of them. -/
theorem view_newOutputs (fold : Char → Char) (hv : st.Valid) (name : GoString) (outputs : List Output)
    (q : Nat) :
    (st.step grow Output.name fold (.new name (.list outputs))).view q =
      if q < st.loggers.length then st.view q
      else if q = st.loggers.length then some (Logger.new name outputs) else none := by
  rw [step_new]
  split_ifs with hq hq'
  · obtain ⟨o, ho⟩ : ∃ o, st.loggers[q]? = some o := ⟨_, List.getElem?_eq_getElem hq⟩
    have ho' : ∀ x : Object, (st.loggers ++ [x])[q]? = some o :=
      fun _ => (List.getElem?_append_left hq).trans ho
    have hmem := List.mem_iff_getElem?.2 ⟨q, ho⟩
    rw [view_eq (ho' _), view_eq ho]
    simp only [State.outputs, State.tags, read, ho', ho, outputsField, tagsField]
    have h₁ : Slice.read (st.outputArrays ++ [outputs]) o.outputs = Slice.read st.outputArrays o.outputs :=
      Slice.read_alloc (hv.outputs o hmem) outputs
    have h₂ : Slice.read (st.tagArrays ++ [[]]) o.tags = Slice.read st.tagArrays o.tags :=
      Slice.read_alloc (hv.tags o hmem) []
    rw [h₁, h₂]
  · subst hq'
    rw [view, List.getElem?_concat_length, Option.map_some']
    simp only [Slice.read, Slice.getD_append_self, List.drop_zero, List.take_length, List.take_zero]
    rfl
  · rw [view, List.getElem?_eq_none (by simp only [List.length_append, List.length_singleton]; omega)]
    rfl

theorem exclusive_newOutputs (fold : Char → Char) {h : Object → Slice} (hx : Exclusive h st.loggers)
    (hnew : ∀ o ∈ st.loggers, (h o).array ≠ (h ⟨name, Level.none, some .empty, ⟨st.outputArrays.length,
      0, outputs.length, outputs.length⟩, .enabled, ⟨st.tagArrays.length, 0, 0, 0⟩⟩).array) :
    Exclusive h (st.step grow Output.name fold (.new name (.list outputs))).loggers :=
  hx.append fun j b hb => hnew b (List.mem_iff_getElem?.2 ⟨j, hb⟩)

end Views

/-! ## Loggers as values -/

section Simulation

variable (grow : Nat → Nat → Nat) (fold : Char → Char) {st : State Output} {loggers : List Logger}

/-- The loggers of `st` read as the values `loggers`, and no two of them share an array. -/
structure Simulates (st : State Output) (loggers : List Logger) : Prop where
  valid : st.Valid
  tags : Exclusive Object.tags st.loggers
  outputs : Exclusive Object.outputs st.loggers
  view : ∀ p, st.view p = loggers[p]?

theorem Simulates.length_eq (h : Simulates st loggers) : loggers.length = st.loggers.length := by
  have h₁ := h.view loggers.length
  have h₂ := h.view st.loggers.length
  rw [List.getElem?_eq_none le_rfl] at h₁
  simp only [State.view, Option.map_eq_none', List.getElem?_eq_none_iff] at h₁
  simp only [State.view, List.getElem?_eq_none le_rfl, Option.map_none'] at h₂
  have := List.getElem?_eq_none_iff.1 h₂.symm
  omega

/-- Every call that lists its outputs keeps the loggers equal to their values. -/
theorem Simulates.step (h : Simulates st loggers) :
    ∀ op : ValueOp, Simulates (st.step grow Output.name fold op.toOp) (valueStep fold loggers op)
  | .new name outputs => by
    have hlen := h.length_eq
    refine ⟨h.valid.step grow Output.name fold (.new name (.list outputs)),
      exclusive_newOutputs grow fold h.tags fun o ho => Nat.ne_of_lt (h.valid.tags o ho).array_lt,
      exclusive_newOutputs grow fold h.outputs fun o ho => Nat.ne_of_lt (h.valid.outputs o ho).array_lt,
      fun q => ?_⟩
    rw [ValueOp.toOp, view_newOutputs grow fold h.valid, valueStep]
    split_ifs with hq hq'
    · rw [h.view, List.getElem?_append_left (by omega)]
    · rw [hq', ← hlen, List.getElem?_concat_length]
    · rw [List.getElem?_eq_none (by simp only [List.length_append, List.length_singleton]; omega)]
  | .setTags p tags =>
    ⟨h.valid.setTags grow p tags, exclusive_appendTo grow tagsField_lawful h.valid.tags h.tags p tags,
      exclusive_appendTo_of_header grow Object.outputs (fun _ _ => rfl) h.outputs p tags,
      fun q => by rw [ValueOp.toOp, State.step, view_setTags grow h.valid h.tags, h.view, valueStep,
        List.getElem?_modify]⟩
  | .addOutputs p outputs =>
    ⟨h.valid.addOutputs grow p outputs,
      exclusive_appendTo_of_header grow Object.tags (fun _ _ => rfl) h.tags p outputs,
      exclusive_appendTo grow outputsField_lawful h.valid.outputs h.outputs p outputs,
      fun q => by
        rw [ValueOp.toOp, State.step, view_addOutputs grow h.valid h.outputs, h.view, valueStep,
          List.getElem?_modify]⟩
  | .setOutputs p outputs =>
    have hl : (st.step grow Output.name fold (.setOutputs p (.list outputs))).loggers = st.loggers :=
      loggers_setOutputs Output.name fold p _
    ⟨h.valid.step grow Output.name fold _, hl ▸ h.tags, hl ▸ h.outputs,
      fun q => by
        rw [ValueOp.toOp, view_setOutputs grow fold h.valid h.outputs, h.view, valueStep,
          List.getElem?_modify]⟩

end Simulation

end State

/-- A program whose calls list their outputs and that makes no child logger keeps each logger's
lists its own: every logger reads as the value the same calls make of it. -/
theorem view_run (grow : Nat → Nat → Nat) (fold : Char → Char) (ops : List ValueOp) (p : Nat) :
    (run grow Output.name fold (ops.map ValueOp.toOp)).view p = (valueRun fold ops)[p]? := by
  suffices ∀ (st : State Output) (loggers : List Logger), State.Simulates st loggers →
      State.Simulates ((ops.map ValueOp.toOp).foldl (State.step grow Output.name fold) st)
        (ops.foldl (valueStep fold) loggers) from
    (this _ _ ⟨⟨fun _ h => absurd h (List.not_mem_nil _), fun _ h => absurd h (List.not_mem_nil _)⟩,
      fun _ _ _ _ h => absurd h (by simp), fun _ _ _ _ h => absurd h (by simp), fun _ => rfl⟩).view p
  induction ops with
  | nil => exact fun _ _ h => h
  | cons op ops ih => exact fun st loggers h => ih _ _ (h.step grow fold op)

end Sypl.Loggers
