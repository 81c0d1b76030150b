import Sypl.Logger
import Mathlib.Data.List.Perm.Basic

/-!
# Concurrent dispatch

`process` runs one goroutine per message of the batch and waits for them all (`g.Wait()`);
the goroutine of a message runs one goroutine per write of `processOutputs` and waits for them,
then sets the shared `shouldExit` flag when the message is fatal; and when all have returned,
`process` calls `os.Exit(1)` if the flag is set. The model is a transition system over every
interleaving of these goroutines (`Step`), each Write returning an error or not as it may; the
events the outside world sees are the calls of the outputs' `Write` and the exit (`Event`).
Every Write is taken to return: a Write that panics, such as the ElasticSearch output's on a
message it cannot index, ends the whole process with status 2 from inside its goroutine, and
no step of the model stands for that. A `nil` logger exits with status 1 before it looks at any
message (`reachable_nil`).

* Every reachable state satisfies `Inv`: the writes of each message so far, together with the
  ones still outstanding, are a permutation of the message's `plan`; `shouldExit` is set exactly
  when some finished message was fatal and not dropped; and the exit is the last event, once.
* A running state can always step (`exists_step`) and every step lowers `measure`, so every
  run ends, in `.exited` or `.returned`.
* At the end, every goroutine has returned and each message has been written exactly by its
  plan, each output once (`Inv.settled`, `process_writes_plan_once`); `process` called
  `os.Exit(1)` once, last, exactly when a kept message is fatal, and returned otherwise
  (`process_exit`).
* Outputs and the component filter are matched by substring: a message routed to `"buffer 1"`
  is written to an output named `"buffer"` (`process_writes_unlisted_output`), and a logger
  named `"sv"` passes the filter `"svc,pv"` (`process_writes_unfiltered_logger`).
-/

namespace Sypl

namespace Dispatch

/-- Where the goroutine of one message stands. -/
inductive Task where
  /-- Started by `g.Go`, not run yet. -/
  | pending (m : Message Fields)
  /-- In `processOutputs`, waiting for the write goroutines that have not returned. -/
  | writing (m : Message Fields) (ws : List (Nat × Message Fields))
  /-- Returned. -/
  | done
  deriving DecidableEq

/-- What the outside world sees of `process`. -/
inductive Event where
  /-- The goroutine of message `msg` called `Write` of output `output` with copy `c`, and the
  call returned an error (`failed`) or not. -/
  | write (msg output : Nat) (c : Message Fields) (failed : Bool)
  /-- `os.Exit(code)`, or the `log.Fatalf` of a `nil` logger. -/
  | exit (code : Nat)
  deriving DecidableEq

/-- Whether `process` is still running, has called `os.Exit`, or has returned. -/
inductive Phase where
  | running
  | exited
  | returned
  deriving DecidableEq

/-- A state of `process`: its goroutines, the shared flag, and what happened so far. -/
structure State where
  tasks : List Task
  shouldExit : Bool
  phase : Phase
  trace : List Event

/-- `process` on a batch: a `nil` logger fails at once with `log.Fatalf`. -/
def init (logger : Option Logger) (msgs : List (Message Fields)) : State :=
  match logger with
  | none => ⟨[], false, .exited, [.exit 1]⟩
  | some _ => ⟨msgs.map .pending, false, .running, []⟩

/-- What the goroutine of `m` becomes when it runs up to its fan-out. -/
def fanOut (sypl : Logger) (env : Env) (m : Message Fields) : Task :=
  match sypl.prepare env m with
  | none => .done
  | some m' => .writing m' (sypl.processOutputs env m' (GoString.join m'.outputsNames ","))

/-- One step of one goroutine. -/
inductive Step (sypl : Logger) (env : Env) : State → State → Prop where
  /-- The goroutine of message `j` runs up to its fan-out. -/
  | start {s : State} {j : Nat} {m : Message Fields} :
      s.phase = .running → s.tasks[j]? = some (.pending m) →
      Step sypl env s { s with tasks := s.tasks.set j (fanOut sypl env m) }
  /-- One of the write goroutines of message `j` calls its output's `Write`, which returns. -/
  | write {s : State} {j : Nat} {m : Message Fields} {pre post : List (Nat × Message Fields)}
      {i : Nat} {c : Message Fields} (failed : Bool) :
      s.phase = .running → s.tasks[j]? = some (.writing m (pre ++ (i, c) :: post)) →
      Step sypl env s { s with tasks := s.tasks.set j (.writing m (pre ++ post)),
                               trace := s.trace ++ [.write j i c failed] }
  /-- The `g.Wait()` of `processOutputs` returns; the goroutine flags a fatal message and
  returns. -/
  | finish {s : State} {j : Nat} {m : Message Fields} :
      s.phase = .running → s.tasks[j]? = some (.writing m []) →
      Step sypl env s { s with tasks := s.tasks.set j .done,
                               shouldExit := s.shouldExit || decide (m.level = Level.fatal) }
  /-- The `g.Wait()` of `process` returns, with the flag set: `os.Exit(1)`. -/
  | exit {s : State} :
      s.phase = .running → (∀ t ∈ s.tasks, t = .done) → s.shouldExit = true →
      Step sypl env s { s with phase := .exited, trace := s.trace ++ [.exit 1] }
  /-- The `g.Wait()` of `process` returns, with the flag clear: `process` returns. -/
  | ret {s : State} :
      s.phase = .running → (∀ t ∈ s.tasks, t = .done) → s.shouldExit = false →
      Step sypl env s { s with phase := .returned }

/-- The states of `process` on `msgs`, over every interleaving. -/
inductive Reachable (env : Env) (msgs : List (Message Fields)) : Option Logger → State → Prop where
  | init (logger : Option Logger) : Reachable env msgs logger (init logger msgs)
  | step {sypl : Logger} {s s' : State} :
      Reachable env msgs (some sypl) s → Step sypl env s s' → Reachable env msgs (some sypl) s'

/-- The writes of message `j` in a trace, by output and copy. -/
def writesOf (j : Nat) : List Event → List (Nat × Message Fields) :=
  List.filterMap fun
    | .write j' i c _ => if j' = j then some (i, c) else none
    | .exit _ => none

/-- The exit of the process. -/
def Event.isExit : Event → Bool
  | .exit _ => true
  | .write .. => false

/-! ## The invariant -/

/-- What the goroutine of message `m` has done, given the writes `writes` it made so far. -/
def TaskInv (sypl : Logger) (env : Env) (m : Message Fields)
    (writes : List (Nat × Message Fields)) : Task → Prop
  | .pending m' => m' = m ∧ writes = []
  | .writing m' ws => sypl.prepare env m = some m' ∧ (writes ++ ws).Perm (sypl.plan env m)
  | .done => writes.Perm (sypl.plan env m)

/-- Some message of the batch was fatal, was kept, and its goroutine has returned. -/
def FatalDone (sypl : Logger) (env : Env) (msgs : List (Message Fields)) (s : State) : Prop :=
  ∃ (j : Nat) (m : Message Fields), msgs[j]? = some m ∧ s.tasks[j]? = some Task.done ∧
    (sypl.prepare env m).isSome ∧ m.level = Level.fatal

/-- What every reachable state of `process` on `msgs` satisfies. -/
structure Inv (sypl : Logger) (env : Env) (msgs : List (Message Fields)) (s : State) : Prop where
  length : s.tasks.length = msgs.length
  task : ∀ (j : Nat) (m : Message Fields), msgs[j]? = some m →
    ∃ t, s.tasks[j]? = some t ∧ TaskInv sypl env m (writesOf j s.trace) t
  shouldExit : s.shouldExit = true ↔ FatalDone sypl env msgs s
  done : s.phase ≠ .running → ∀ t ∈ s.tasks, t = .done
  exited : s.phase = .exited ↔ s.phase ≠ .running ∧ s.shouldExit = true
  exits : s.trace.filter Event.isExit = if s.phase = .exited then [.exit 1] else []
  last : s.phase = .exited → s.trace.getLast? = some (.exit 1)

variable {sypl : Logger} {env : Env} {msgs : List (Message Fields)} {s : State}

theorem writesOf_append_write (k j i : Nat) (c : Message Fields) (b : Bool) (T : List Event) :
    writesOf k (T ++ [.write j i c b]) = writesOf k T ++ if j = k then [(i, c)] else [] := by
  simp only [writesOf, List.filterMap_append, List.filterMap_cons, List.filterMap_nil]
  split <;> simp_all

theorem writesOf_append_exit (k n : Nat) (T : List Event) :
    writesOf k (T ++ [.exit n]) = writesOf k T := by
  simp [writesOf, List.filterMap_append]

theorem plan_eq_none {m : Message Fields} (h : sypl.prepare env m = none) :
    sypl.plan env m = [] := by
  simp [Logger.plan, h]

theorem plan_eq_some {m m' : Message Fields} (h : sypl.prepare env m = some m') :
    sypl.plan env m = sypl.processOutputs env m' (GoString.join m'.outputsNames ",") := by
  simp [Logger.plan, h]

/-- The invariant at a task of the batch, read at its index. -/
theorem Inv.taskAt (hi : Inv sypl env msgs s) {j : Nat} {t : Task} (ht : s.tasks[j]? = some t) :
    ∃ m, msgs[j]? = some m ∧ TaskInv sypl env m (writesOf j s.trace) t := by
  have hj : j < msgs.length := hi.length ▸ (List.getElem?_eq_some_iff.1 ht).1
  obtain ⟨t', ht', hinv⟩ := hi.task j msgs[j] (List.getElem?_eq_getElem hj)
  exact ⟨msgs[j], List.getElem?_eq_getElem hj, (Option.some.inj (ht.symm.trans ht')) ▸ hinv⟩

/-- `FatalDone` only looks at the returned goroutines of kept messages. -/
theorem fatalDone_congr {s' : State}
    (h : ∀ (k : Nat) (m : Message Fields), msgs[k]? = some m → (sypl.prepare env m).isSome →
      (s'.tasks[k]? = some Task.done ↔ s.tasks[k]? = some Task.done)) :
    FatalDone sypl env msgs s' ↔ FatalDone sypl env msgs s := by
  unfold FatalDone
  constructor <;> rintro ⟨k, m, hm, hd, hk, hf⟩
  · exact ⟨k, m, hm, (h k m hm hk).1 hd, hk, hf⟩
  · exact ⟨k, m, hm, (h k m hm hk).2 hd, hk, hf⟩

theorem inv_init (sypl : Logger) (env : Env) (msgs : List (Message Fields)) :
    Inv sypl env msgs (init (some sypl) msgs) where
  length := by simp [init]
  task j m hm := ⟨.pending m, by simp [init, hm], rfl, rfl⟩
  shouldExit := by simp [init, FatalDone]
  done h := absurd rfl h
  exited := by simp [init]
  exits := by simp [init]
  last h := by cases h

/-- Replacing the task at `j` keeps the invariant of every other task whose writes did not
change. -/
theorem Inv.task_set (hi : Inv sypl env msgs s) {j : Nat} {t' : Task} {T : List Event}
    (hT : ∀ k, k ≠ j → writesOf k T = writesOf k s.trace)
    (hnew : ∀ m, msgs[j]? = some m → TaskInv sypl env m (writesOf j T) t')
    (hj : j < s.tasks.length) (k : Nat) (mk : Message Fields) (hk : msgs[k]? = some mk) :
    ∃ t, (s.tasks.set j t')[k]? = some t ∧ TaskInv sypl env mk (writesOf k T) t := by
  by_cases hkj : k = j
  · subst hkj
    exact ⟨t', List.getElem?_set_self hj, hnew mk hk⟩
  · rw [List.getElem?_set_ne (Ne.symm hkj), hT k hkj]
    exact hi.task k mk hk

/-- Replacing a task by one that has returned exactly when it had, for a kept message, keeps
`FatalDone`. -/
theorem fatalDone_set {j : Nat} {t t' : Task} (ht : s.tasks[j]? = some t)
    (h : ∀ m, msgs[j]? = some m → (sypl.prepare env m).isSome → (t' = .done ↔ t = .done))
    {s' : State} (hs' : s'.tasks = s.tasks.set j t') :
    FatalDone sypl env msgs s' ↔ FatalDone sypl env msgs s :=
  fatalDone_congr fun k mk hk hkept => by
    rw [hs']
    by_cases hkj : k = j
    · subst hkj
      simpa [List.getElem?_set_self (List.getElem?_eq_some_iff.1 ht).1, ht] using h mk hk hkept
    · rw [List.getElem?_set_ne (Ne.symm hkj)]

theorem inv_start (hi : Inv sypl env msgs s) (hrun : s.phase = .running) {j : Nat}
    {m : Message Fields} (ht : s.tasks[j]? = some (.pending m)) :
    Inv sypl env msgs { s with tasks := s.tasks.set j (fanOut sypl env m) } := by
  obtain ⟨m₀, hm₀, rfl, hw⟩ := hi.taskAt ht
  refine ⟨by simpa using hi.length,
    hi.task_set (fun _ _ => rfl) (fun mk hk => ?_) (List.getElem?_eq_some_iff.1 ht).1,
    hi.shouldExit.trans (fatalDone_set ht (fun mk hk hkept => ?_) rfl).symm, fun h => absurd hrun h,
    hi.exited, hi.exits, hi.last⟩
  · obtain rfl := Option.some.inj (hm₀.symm.trans hk)
    rw [hw]
    unfold fanOut
    cases hp : sypl.prepare env m with
    | none => exact (plan_eq_none hp).symm ▸ List.Perm.refl _
    | some m' => exact ⟨hp, by rw [plan_eq_some hp, List.nil_append]⟩
  · obtain rfl := Option.some.inj (hm₀.symm.trans hk)
    obtain ⟨m', hm'⟩ := Option.isSome_iff_exists.1 hkept
    simp [fanOut, hm']

theorem inv_write (hi : Inv sypl env msgs s) (hrun : s.phase = .running) {j i : Nat}
    {m c : Message Fields} {pre post : List (Nat × Message Fields)} (b : Bool)
    (ht : s.tasks[j]? = some (.writing m (pre ++ (i, c) :: post))) :
    Inv sypl env msgs { s with tasks := s.tasks.set j (.writing m (pre ++ post)),
                               trace := s.trace ++ [.write j i c b] } := by
  obtain ⟨m₀, hm₀, hp, hperm⟩ := hi.taskAt ht
  refine ⟨by simpa using hi.length,
    hi.task_set (fun k hkj => ?_) (fun mk hk => ?_) (List.getElem?_eq_some_iff.1 ht).1,
    hi.shouldExit.trans (fatalDone_set ht (fun _ _ _ => by simp) rfl).symm, fun h => absurd hrun h,
    hi.exited, by simpa [List.filter_append, Event.isExit] using hi.exits,
    fun h => by simp [hrun] at h⟩
  · rw [writesOf_append_write, if_neg (Ne.symm hkj), List.append_nil]
  · obtain rfl := Option.some.inj (hm₀.symm.trans hk)
    refine ⟨hp, ?_⟩
    rw [writesOf_append_write, if_pos rfl, List.append_assoc, List.singleton_append]
    exact (List.perm_middle.symm.append_left _).trans hperm

theorem inv_finish (hi : Inv sypl env msgs s) (hrun : s.phase = .running) {j : Nat}
    {m : Message Fields} (ht : s.tasks[j]? = some (.writing m [])) :
    Inv sypl env msgs { s with tasks := s.tasks.set j .done,
                               shouldExit := s.shouldExit || decide (m.level = Level.fatal) } := by
  obtain ⟨m₀, hm₀, hp, hperm⟩ := hi.taskAt ht
  have hj : j < s.tasks.length := (List.getElem?_eq_some_iff.1 ht).1
  have hlev : m.level = m₀.level := Logger.prepare_level hp
  refine ⟨by simpa using hi.length, hi.task_set (fun _ _ => rfl) (fun mk hk => ?_) hj, ?_,
    fun h => absurd hrun h, by simp [hrun], hi.exits, hi.last⟩
  · obtain rfl := Option.some.inj (hm₀.symm.trans hk)
    simpa using hperm
  · simp only [Bool.or_eq_true, decide_eq_true_eq, hi.shouldExit, FatalDone]
    constructor
    · rintro (⟨k, mk, hk, hd, hkept, hf⟩ | hf)
      · have hkj : k ≠ j := by rintro rfl; simp [ht] at hd
        exact ⟨k, mk, hk, by rwa [List.getElem?_set_ne (Ne.symm hkj)], hkept, hf⟩
      · exact ⟨j, m₀, hm₀, List.getElem?_set_self hj, by simp [hp], hlev ▸ hf⟩
    · rintro ⟨k, mk, hk, hd, hkept, hf⟩
      by_cases hkj : k = j
      · subst hkj
        obtain rfl := Option.some.inj (hm₀.symm.trans hk)
        exact .inr (hlev ▸ hf)
      · exact .inl ⟨k, mk, hk, by rwa [List.getElem?_set_ne (Ne.symm hkj)] at hd, hkept, hf⟩

theorem inv_exit (hi : Inv sypl env msgs s) (hrun : s.phase = .running)
    (hd : ∀ t ∈ s.tasks, t = .done) (he : s.shouldExit = true) :
    Inv sypl env msgs { s with phase := .exited, trace := s.trace ++ [.exit 1] } where
  length := hi.length
  task k mk hk := by simpa only [writesOf_append_exit] using hi.task k mk hk
  shouldExit := hi.shouldExit
  done _ := hd
  exited := by simp [he]
  exits := by simpa [List.filter_append, Event.isExit, hrun] using hi.exits
  last _ := by simp

theorem inv_ret (hi : Inv sypl env msgs s) (hrun : s.phase = .running)
    (hd : ∀ t ∈ s.tasks, t = .done) (he : s.shouldExit = false) :
    Inv sypl env msgs { s with phase := .returned } where
  length := hi.length
  task := hi.task
  shouldExit := hi.shouldExit
  done _ := hd
  exited := by simp [he]
  exits := by simpa [hrun] using hi.exits
  last h := by cases h

/-- Every step keeps the invariant. -/
theorem Inv.step (hi : Inv sypl env msgs s) {s' : State} (h : Step sypl env s s') :
    Inv sypl env msgs s' := by
  cases h with
  | start hrun ht => exact inv_start hi hrun ht
  | write b hrun ht => exact inv_write hi hrun b ht
  | finish hrun ht => exact inv_finish hi hrun ht
  | exit hrun hd he => exact inv_exit hi hrun hd he
  | ret hrun hd he => exact inv_ret hi hrun hd he

/-- Every reachable state of a logger keeps the invariant. -/
theorem Reachable.inv {logger : Option Logger} (h : Reachable env msgs logger s) :
    ∀ sypl, logger = some sypl → Inv sypl env msgs s := by
  induction h with
  | init _ => rintro sypl rfl; exact inv_init sypl env msgs
  | step _ hs ih => rintro sypl ⟨⟩; exact (ih _ rfl).step hs

/-! ## Every run ends -/

/-- What is left to run of one goroutine: its fan-out, its writes and its return. -/
def Task.weight (sypl : Logger) (env : Env) : Task → Nat
  | .pending m => (sypl.plan env m).length + 2
  | .writing _ ws => ws.length + 1
  | .done => 0

/-- What is left to run of `process`: every goroutine, and the return of its `g.Wait()`. -/
def measure (sypl : Logger) (env : Env) (s : State) : Nat :=
  s.tasks.foldr (fun t n => t.weight sypl env + n) 0 + if s.phase = .running then 1 else 0

theorem foldr_weight_set (w : Task → Nat) {t : Task} (t' : Task) :
    ∀ {l : List Task} {j : Nat}, l[j]? = some t →
      (l.set j t').foldr (fun t n => w t + n) 0 + w t = l.foldr (fun t n => w t + n) 0 + w t' := by
  intro l
  induction l with
  | nil => simp
  | cons a l ih =>
    rintro (_ | j) h
    · obtain rfl : a = t := by simpa using h
      simp only [List.set_cons_zero, List.foldr_cons]
      omega
    · have := ih (j := j) (by simpa using h)
      simp only [List.set_cons_succ, List.foldr_cons]
      omega

theorem weight_fanOut_lt (sypl : Logger) (env : Env) (m : Message Fields) :
    (fanOut sypl env m).weight sypl env < (Task.pending m).weight sypl env := by
  unfold fanOut
  cases hp : sypl.prepare env m with
  | none => simp [Task.weight]
  | some m' => simp [Task.weight, plan_eq_some hp]

/-- Every step lowers the measure. -/
theorem measure_lt {s' : State} (h : Step sypl env s s') :
    measure sypl env s' < measure sypl env s := by
  cases h with
  | @start _ m hrun ht =>
    have := foldr_weight_set (Task.weight sypl env) (fanOut sypl env m) ht
    have := weight_fanOut_lt sypl env m
    simp only [measure, hrun]
    omega
  | @write _ m pre post _ _ _ hrun ht =>
    have := foldr_weight_set (Task.weight sypl env) (.writing m (pre ++ post)) ht
    simp only [measure, hrun, Task.weight, List.length_append, List.length_cons] at this ⊢
    omega
  | finish hrun ht =>
    have := foldr_weight_set (Task.weight sypl env) .done ht
    simp only [measure, hrun, Task.weight] at this ⊢
    omega
  | exit hrun _ _ => simp [measure, hrun]
  | ret hrun _ _ => simp [measure, hrun]

/-- A running `process` can always take a step: some goroutine has something left to do, or
the last `g.Wait()` returns. -/
theorem exists_step (hrun : s.phase = .running) : ∃ s', Step sypl env s s' := by
  by_cases hd : ∀ t ∈ s.tasks, t = .done
  · cases he : s.shouldExit
    · exact ⟨_, .ret hrun hd he⟩
    · exact ⟨_, .exit hrun hd he⟩
  · push_neg at hd
    obtain ⟨t, ht, hne⟩ := hd
    obtain ⟨j, hj⟩ := List.mem_iff_getElem?.1 ht
    match t, hne, hj with
    | .pending _, _, hj => exact ⟨_, .start hrun hj⟩
    | .writing _ [], _, hj => exact ⟨_, .finish hrun hj⟩
    | .writing m ((i, c) :: ws), _, hj =>
      exact ⟨_, @Step.write sypl env s j m [] ws i c false hrun hj⟩

theorem Step.running {s' : State} (h : Step sypl env s s') : s.phase = .running := by
  cases h <;> assumption

/-- From every reachable state some run reaches the end. -/
theorem Reachable.exists_finished (h : Reachable env msgs (some sypl) s) :
    ∃ s', Reachable env msgs (some sypl) s' ∧ s'.phase ≠ .running := by
  obtain ⟨n, hn⟩ : ∃ n, measure sypl env s = n := ⟨_, rfl⟩
  induction n using Nat.strong_induction_on generalizing s with
  | _ n ih =>
    by_cases hrun : s.phase = .running
    · obtain ⟨s', hs'⟩ : ∃ s', Step sypl env s s' := exists_step hrun
      exact ih _ (hn ▸ measure_lt hs') (h.step hs') rfl
    · exact ⟨s, h, hrun⟩

/-! ## The end of a run -/

/-- Every goroutine has returned, and each message was written by exactly its plan. -/
def Settled (sypl : Logger) (env : Env) (msgs : List (Message Fields)) (s : State) : Prop :=
  (∀ t ∈ s.tasks, t = .done) ∧
    ∀ (j : Nat) (m : Message Fields), msgs[j]? = some m →
      (writesOf j s.trace).Perm (sypl.plan env m)

theorem Inv.settled (hi : Inv sypl env msgs s) (hfin : s.phase ≠ .running) :
    Settled sypl env msgs s := by
  refine ⟨hi.done hfin, fun j m hm => ?_⟩
  obtain ⟨t, ht, hinv⟩ := hi.task j m hm
  obtain rfl := hi.done hfin t (List.getElem?_mem ht)
  exact hinv

/-- Once every goroutine has returned, the flag is set exactly when the batch has a kept fatal
message. -/
theorem Inv.shouldExit_iff (hi : Inv sypl env msgs s) (hd : ∀ t ∈ s.tasks, t = .done) :
    s.shouldExit = true ↔ ∃ m ∈ msgs, (sypl.prepare env m).isSome ∧ m.level = Level.fatal := by
  rw [hi.shouldExit, FatalDone]
  constructor
  · rintro ⟨j, m, hm, -, hk, hf⟩
    exact ⟨m, List.getElem?_mem hm, hk, hf⟩
  · rintro ⟨m, hm, hk, hf⟩
    obtain ⟨j, hj⟩ := List.mem_iff_getElem?.1 hm
    obtain ⟨t, ht, -⟩ := hi.task j m hj
    exact ⟨j, m, hj, hd t (List.getElem?_mem ht) ▸ ht, hk, hf⟩

theorem Inv.exit_mem_iff (hi : Inv sypl env msgs s) {c : Nat} :
    Event.exit c ∈ s.trace ↔ c = 1 ∧ s.phase = .exited := by
  have hmem : Event.exit c ∈ s.trace ↔ Event.exit c ∈ s.trace.filter Event.isExit := by
    simp [Event.isExit]
  rw [hmem, hi.exits]
  split <;> rename_i hp <;> simp [hp]

theorem mem_writesOf {j i : Nat} {c : Message Fields} {T : List Event} :
    (i, c) ∈ writesOf j T ↔ ∃ b, Event.write j i c b ∈ T := by
  simp only [writesOf, List.mem_filterMap]
  constructor
  · rintro ⟨_ | _, he, hw⟩
    · simp only [Option.ite_none_right_eq_some, Option.some.injEq, Prod.mk.injEq] at hw
      obtain ⟨rfl, rfl, rfl⟩ := hw
      exact ⟨_, he⟩
    · cases hw
  · rintro ⟨b, hb⟩
    exact ⟨_, hb, if_pos rfl⟩

/-- At the end of a run, message `j` was handed to output `i` exactly by its plan. -/
theorem Inv.write_mem_iff (hi : Inv sypl env msgs s) (hfin : s.phase ≠ .running) {j i : Nat}
    {m c : Message Fields} (hm : msgs[j]? = some m) :
    (∃ b, Event.write j i c b ∈ s.trace) ↔ (i, c) ∈ sypl.plan env m := by
  rw [← mem_writesOf]
  exact ((hi.settled hfin).2 j m hm).mem_iff

/-- At the end of every run, message `j` was handed to exactly the outputs of its plan, each
output once, with its stamped copy. -/
theorem process_writes_plan_once (hs : Reachable env msgs (some sypl) s)
    (hfin : s.phase ≠ .running) {j : Nat} {m : Message Fields} (hm : msgs[j]? = some m) :
    ((writesOf j s.trace).map Prod.fst).Nodup ∧
      ∀ i c, (∃ b, Event.write j i c b ∈ s.trace) ↔ (i, c) ∈ sypl.plan env m := by
  have hi := hs.inv sypl rfl
  have hperm := (hi.settled hfin).2 j m hm
  refine ⟨(hperm.map Prod.fst).nodup_iff.2 ?_, fun _ _ => hi.write_mem_iff hfin hm⟩
  cases hp : sypl.prepare env m with
  | none => simp [plan_eq_none hp]
  | some m' => rw [plan_eq_some hp]; exact Logger.nodup_processOutputs ..

theorem process_writes_plan_once_run :
    ∃ s, Reachable ⟨[], []⟩ [Message.new none "" "" 0 .info "x"]
        (some (Logger.new "app" [⟨"a", .enabled⟩, ⟨"b", .enabled⟩])) s ∧ s.phase ≠ .running ∧
      (((writesOf 0 s.trace).map Prod.fst).Nodup ∧
        ∀ i c, (∃ b, Event.write 0 i c b ∈ s.trace) ↔
          (i, c) ∈ (Logger.new "app" [⟨"a", .enabled⟩, ⟨"b", .enabled⟩]).plan ⟨[], []⟩
            (Message.new none "" "" 0 .info "x")) := by
  obtain ⟨s, hs, hfin⟩ := (Reachable.init _).exists_finished
  exact ⟨s, hs, hfin, process_writes_plan_once hs hfin rfl⟩

/-- A `nil` logger: `process` calls `log.Fatalf`, which exits with status 1, before it looks at
any message, and nothing is written. -/
theorem reachable_nil (hs : Reachable env msgs none s) : s.phase = .exited ∧ s.trace = [.exit 1] := by
  cases hs
  exact ⟨rfl, rfl⟩

/-- `process` on `msgs`, whatever the interleaving: every run ends, `os.Exit(1)` is called at
most once, as the last event, after every goroutine and every write has returned; and at the
end, it was called exactly when a kept message is fatal, and `process` returned otherwise. A
message is kept when `prepare` returns it, which `Logger.isSome_prepare_iff` states by the two
checks of `process`, as `exit_iff_fatal_kept` does for the exit. -/
theorem process_exit (hs : Reachable env msgs (some sypl) s) :
    ((s.phase = .running ↔ ∃ s', Step sypl env s s') ∧
      ∀ s', Step sypl env s s' → measure sypl env s' < measure sypl env s) ∧
    (s.trace.filter Event.isExit).length ≤ 1 ∧
    (∀ e ∈ s.trace, e.isExit = true →
      e = .exit 1 ∧ s.trace.getLast? = some e ∧ Settled sypl env msgs s) ∧
    (s.phase ≠ .running → Settled sypl env msgs s ∧
      (Event.exit 1 ∈ s.trace ↔ ∃ m ∈ msgs, (sypl.prepare env m).isSome ∧ m.level = Level.fatal) ∧
      (s.phase = .returned ↔
        ¬ ∃ m ∈ msgs, (sypl.prepare env m).isSome ∧ m.level = Level.fatal)) := by
  have hi := hs.inv sypl rfl
  refine ⟨⟨⟨exists_step, fun ⟨_, h⟩ => h.running⟩, fun _ => measure_lt⟩, ?_, ?_, fun hfin => ?_⟩
  · rw [hi.exits]
    split <;> simp
  · rintro (_ | c) he hexit
    · cases hexit
    · obtain ⟨rfl, hx⟩ := hi.exit_mem_iff.1 he
      exact ⟨rfl, hi.last hx, hi.settled (by simp [hx])⟩
  · have hset := hi.settled hfin
    rw [← hi.shouldExit_iff hset.1, hi.exit_mem_iff]
    refine ⟨hset, ?_, ?_⟩
    · simp [hi.exited, hfin]
    · have := hi.exited
      rcases hp : s.phase <;> simp_all

theorem process_exit_fatal :
    ∃ s, Reachable ⟨[], []⟩ [Message.new none "" "" 0 .fatal "x"]
        (some (Logger.new "app" [⟨"out", .enabled⟩])) s ∧
      s.phase = .exited ∧ Event.exit 1 ∈ s.trace := by
  obtain ⟨s, hs, hfin⟩ := (Reachable.init _).exists_finished
  obtain ⟨-, -, -, hend⟩ := process_exit hs
  obtain ⟨-, hexit, -⟩ := hend hfin
  have hfatal : ∃ m ∈ [Message.new none "" "" 0 .fatal "x"],
      ((Logger.new "app" [⟨"out", .enabled⟩]).prepare ⟨[], []⟩ m).isSome ∧ m.level = Level.fatal :=
    ⟨_, List.mem_singleton_self _, by decide, rfl⟩
  refine ⟨s, hs, ?_, hexit.2 hfatal⟩
  have := hs.inv _ rfl |>.exit_mem_iff.1 (hexit.2 hfatal)
  exact this.2

/-- The exit condition of `process_exit` by the two checks of `process`: at the end of every
run, `os.Exit(1)` was called exactly when a message of the batch is fatal, is not both empty and
flagged `SkipAndMute`, and passes the component filter. -/
theorem exit_iff_fatal_kept (hs : Reachable env msgs (some sypl) s) (hfin : s.phase ≠ .running) :
    Event.exit 1 ∈ s.trace ↔ ∃ m ∈ msgs, m.level = Level.fatal ∧
      ¬ (m.content.original = [] ∧ m.flag = .skipAndMute) ∧
      (env.filter = [] ∨ GoString.contains env.filter sypl.name = true) := by
  have hi := hs.inv sypl rfl
  simp only [hi.exit_mem_iff, hi.exited, hi.shouldExit_iff (hi.done hfin), Logger.isSome_prepare_iff,
    true_and, ne_eq, hfin, not_false_eq_true]
  exact exists_congr fun _ => and_congr_right fun _ => and_comm

/-! ## Routing by substring -/

/-- A message routed to `"buffer 1"` alone is written, in every run of `process`, to the enabled
output `"buffer"` too: `processOutputs` looks the name up in the joined routing with
`strings.Contains`, and `"buffer"` occurs in `"buffer 1"`. -/
theorem process_writes_unlisted_output (env : Env) (henv : env.filter = []) (s : State)
    (hs : Reachable env [{ Message.new none "" "" 0 .info "x" with outputsNames := ["buffer 1"] }]
      (some (Logger.new "app" [⟨"buffer", .enabled⟩, ⟨"buffer 1", .enabled⟩])) s)
    (hfin : s.phase ≠ .running) :
    ∃ c b, Event.write 0 0 c b ∈ s.trace ∧ c.outputName = "buffer" := by
  set m : Message Fields := { Message.new none "" "" 0 .info "x" with outputsNames := ["buffer 1"] }
  set sypl := Logger.new "app" [⟨"buffer", .enabled⟩, ⟨"buffer 1", .enabled⟩]
  have hkept : ¬ (m.content.original = [] ∧ m.flag = .skipAndMute) := by decide
  have hne : sypl.prepare env m ≠ none := by simp [Logger.prepare_eq_none_iff, henv, hkept]
  obtain ⟨m', hp⟩ := Option.ne_none_iff_exists'.1 hne
  have hroute : m'.outputsNames = [GoString.ofString "buffer 1"] := by
    simp [Logger.prepare_outputsNames hp, m]
  obtain ⟨b, hb⟩ := ((hs.inv sypl rfl).write_mem_iff hfin (j := 0) (i := 0) (m := m)
    (c := sypl.stamp env m' ⟨"buffer", .enabled⟩) rfl).2
    (by
      rw [plan_eq_some hp, hroute, Logger.mem_processOutputs]
      exact ⟨_, rfl, rfl, by decide, rfl⟩)
  exact ⟨_, b, hb, Logger.stamp_outputName ..⟩

theorem process_writes_unlisted_output_run :
    ∃ s, Reachable ⟨[], []⟩
        [{ Message.new none "" "" 0 .info "x" with outputsNames := ["buffer 1"] }]
        (some (Logger.new "app" [⟨"buffer", .enabled⟩, ⟨"buffer 1", .enabled⟩])) s ∧
      s.phase ≠ .running ∧ ∃ c b, Event.write 0 0 c b ∈ s.trace ∧ c.outputName = "buffer" := by
  obtain ⟨s, hs, hfin⟩ := (Reachable.init _).exists_finished
  exact ⟨s, hs, hfin, process_writes_unlisted_output _ rfl s hs hfin⟩

/-- With `SYPL_FILTER` set to `"svc,pv"`, a logger named `"sv"`, which is not an entry of the
list, still writes its messages, in every run: `process` tests the filter with
`strings.Contains`. -/
theorem process_writes_unfiltered_logger (env : Env) (henv : env.filter = "svc,pv") (s : State)
    (hs : Reachable env [Message.new none "" "" 0 .info "x"]
      (some (Logger.new "sv" [⟨"out", .enabled⟩])) s)
    (hfin : s.phase ≠ .running) :
    GoString.ofString "sv" ∉ (GoString.ofString "svc,pv").splitOn ','.toUInt8 ∧
      ∃ c b, Event.write 0 0 c b ∈ s.trace := by
  set m : Message Fields := Message.new none "" "" 0 .info "x"
  set sypl := Logger.new "sv" [⟨"out", .enabled⟩]
  have hpass : ¬ (m.content.original = [] ∧ m.flag = .skipAndMute) ∧
      GoString.contains "svc,pv" sypl.name = true := by decide
  have hne : sypl.prepare env m ≠ none := by simp [Logger.prepare_eq_none_iff, henv, hpass]
  obtain ⟨m', hp⟩ := Option.ne_none_iff_exists'.1 hne
  have hroute : m'.outputsNames = [GoString.ofString "out"] := by
    simp [Logger.prepare_outputsNames hp, m, sypl, Message.new, Logger.getOutputsNames, Logger.new]
  obtain ⟨b, hb⟩ := ((hs.inv sypl rfl).write_mem_iff hfin (j := 0) (i := 0) (m := m)
    (c := sypl.stamp env m' ⟨"out", .enabled⟩) rfl).2
    (by
      rw [plan_eq_some hp, hroute, Logger.mem_processOutputs]
      exact ⟨_, rfl, rfl, by decide, rfl⟩)
  exact ⟨by decide, _, b, hb⟩

theorem process_writes_unfiltered_logger_run :
    ∃ s, Reachable ⟨"svc,pv", []⟩ [Message.new none "" "" 0 .info "x"]
        (some (Logger.new "sv" [⟨"out", .enabled⟩])) s ∧ s.phase ≠ .running ∧
      GoString.ofString "sv" ∉ (GoString.ofString "svc,pv").splitOn ','.toUInt8 ∧
        ∃ c b, Event.write 0 0 c b ∈ s.trace := by
  obtain ⟨s, hs, hfin⟩ := (Reachable.init _).exists_finished
  exact ⟨s, hs, hfin, process_writes_unfiltered_logger _ rfl s hs hfin⟩

end Dispatch

end Sypl
