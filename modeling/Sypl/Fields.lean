import Sypl.GoString
import Mathlib.Data.List.Nodup

/-!
# Structured fields

A Go map is a reference: `fields.Fields` values are `nil` or point to a map that every holder
of the reference sees change. The model keeps the maps in a `Heap`, a `Ref` is `none` for `nil`
or an index, and an assignment into a `nil` map panics (`Heap.assign`).

* `GoMap` carries the uniqueness of its keys; `GoMap.insert` is `m[k] = v`, and
  `GoMap.copyInto` is the loop `for k, v := range src { dst[k] = v }`, which reads back as
  `src` over `dst` (`get?_copyInto`) whatever order the range takes.
* `copy` is `fields.Copy` run on the heap; it writes only into its target
  (`read_copy`).
-/

namespace Sypl

/-- Modelled from the spec: `flag.Flag` (package `flag` is not under `src/`), the six flags of
the dispatch algorithm. -/
inductive Flag where
  | none
  | mute
  | force
  | skip
  | skipAndForce
  | skipAndMute
  deriving DecidableEq, Repr

/-- A Go `interface{}` value, by the dynamic types the logger stores or reads back. -/
inductive Any where
  | nil
  | bool (b : Bool)
  | int (n : Int)
  | str (s : GoString)
  | strs (ss : List GoString)
  | flag (f : Flag)
  deriving DecidableEq, Repr

/-- A Go map with string keys: its entries, each key once. -/
structure GoMap (α : Type) where
  entries : List (GoString × α)
  nodup : (entries.map Prod.fst).Nodup
  deriving DecidableEq

namespace GoMap

variable {α : Type}

def empty : GoMap α := ⟨[], List.nodup_nil⟩

/-- The keys of the map. -/
def keys (m : GoMap α) : List GoString := m.entries.map Prod.fst

/-- `m[k]`, with `none` for a missing key. -/
def get? (m : GoMap α) (k : GoString) : Option α := m.entries.lookup k

/-- `m[k] = v`. Go gives no order to a map's entries; the new one goes last. -/
def insert (m : GoMap α) (k : GoString) (v : α) : GoMap α :=
  ⟨m.entries.filter (·.1 != k) ++ [(k, v)], by
    rw [List.map_append, List.nodup_append]
    refine ⟨(m.nodup.sublist ((List.filter_sublist _).map _)), List.nodup_singleton _, ?_⟩
    simp only [List.map_cons, List.map_nil, List.disjoint_singleton, List.mem_map,
      List.mem_filter, not_exists, not_and]
    intro e ⟨_, hk⟩ he
    simp [he] at hk⟩

/-- `for k, v := range src { dst[k] = v }`. -/
def copyInto (src dst : GoMap α) : GoMap α := src.entries.foldl (fun m e => m.insert e.1 e.2) dst

theorem lookup_eq_none {k : GoString} :
    ∀ {es : List (GoString × α)}, k ∉ es.map Prod.fst → es.lookup k = none
  | [], _ => rfl
  | (k₀, v) :: es, h => by
    simp only [List.map_cons, List.mem_cons, not_or] at h
    simp only [List.lookup_cons, beq_false_of_ne h.1]
    exact lookup_eq_none h.2

theorem lookup_filter_ne {k k' : GoString} (h : k' ≠ k) :
    ∀ es : List (GoString × α), (es.filter (·.1 != k)).lookup k' = es.lookup k'
  | [] => rfl
  | (k₀, v) :: es => by
    by_cases h₀ : k₀ = k
    · subst h₀
      simp [List.filter_cons, List.lookup_cons, beq_false_of_ne h, lookup_filter_ne h es]
    · simp [List.filter_cons, h₀, List.lookup_cons, lookup_filter_ne h es]

theorem lookup_of_mem {k : GoString} {v : α} :
    ∀ {es : List (GoString × α)}, (es.map Prod.fst).Nodup → (k, v) ∈ es → es.lookup k = some v
  | (k₀, v₀) :: es, hnd, h => by
    simp only [List.map_cons, List.nodup_cons] at hnd
    rcases List.mem_cons.1 h with h | h
    · cases h
      simp [List.lookup_cons]
    · have hk : k ≠ k₀ := fun e => hnd.1 (e ▸ List.mem_map_of_mem Prod.fst h)
      simp [List.lookup_cons, beq_false_of_ne hk, lookup_of_mem hnd.2 h]

@[simp] theorem get?_empty (k : GoString) : (empty : GoMap α).get? k = none := rfl

@[simp] theorem get?_insert (m : GoMap α) (k k' : GoString) (v : α) :
    (m.insert k v).get? k' = if k' = k then some v else m.get? k' := by
  simp only [get?, insert, List.lookup_append]
  split
  · subst k'
    rw [lookup_eq_none (by simp)]
    simp
  · rw [lookup_filter_ne ‹_›]
    simp [List.lookup_cons, beq_false_of_ne ‹k' ≠ k›]

theorem mem_keys_iff {m : GoMap α} {k : GoString} : k ∈ m.keys ↔ (m.get? k).isSome := by
  obtain ⟨es, hes⟩ := m
  simp only [keys, get?]
  clear hes
  induction es with
  | nil => simp
  | cons e es ih =>
    by_cases h : k = e.1
    · simp [h, List.lookup_cons]
    · simp [List.lookup_cons, beq_false_of_ne h, h, ih]

/-- Inserting entries with distinct keys, in order, reads them first and `dst` for the others. -/
theorem get?_foldl_insert (dst : GoMap α) (k : GoString) :
    ∀ es : List (GoString × α), (es.map Prod.fst).Nodup →
      (es.foldl (fun m e => m.insert e.1 e.2) dst).get? k = (es.lookup k).or (dst.get? k)
  | [], _ => by simp
  | (k₀, v) :: es, hes => by
    simp only [List.map_cons, List.nodup_cons] at hes
    rw [List.foldl_cons, get?_foldl_insert _ k es hes.2, get?_insert, List.lookup_cons]
    by_cases h : k = k₀
    · subst h
      simp [lookup_eq_none hes.1]
    · simp [h, beq_false_of_ne h]

/-- The copied map reads `src` first and `dst` for the keys `src` lacks. -/
theorem get?_copyInto (src dst : GoMap α) (k : GoString) :
    (src.copyInto dst).get? k = (src.get? k).or (dst.get? k) :=
  get?_foldl_insert dst k src.entries src.nodup

end GoMap

/-- Why a goroutine panics. -/
inductive Panic where
  /-- `assignment to entry in nil map`. -/
  | nilMapAssignment
  /-- A failed type assertion `x.(T)`. -/
  | typeAssertion
  deriving DecidableEq, Repr

/-- A `fields.Fields` value: `nil`, or the reference of a map of the heap. -/
abbrev Ref := Option Nat

/-- The `fields.Fields` maps allocated so far; a reference is an index into `maps`. -/
structure Heap where
  maps : List (GoMap Any)

namespace Heap

/-- Reading through a reference; `nil` reads as the empty map. -/
def read (h : Heap) : Ref → GoMap Any
  | none => .empty
  | some i => h.maps.getD i .empty

/-- A reference of the heap: `nil`, or the index of an allocated map. -/
def Valid (h : Heap) : Ref → Prop
  | none => True
  | some i => i < h.maps.length

/-- `fields.Fields{}` or `make(fields.Fields)`: a fresh map. -/
def alloc (h : Heap) (m : GoMap Any) : Heap × Ref := (⟨h.maps ++ [m]⟩, some h.maps.length)

/-- `target[k] = v`. -/
def assign (h : Heap) (target : Ref) (k : GoString) (v : Any) : Except Panic Heap :=
  match target with
  | none => .error .nilMapAssignment
  | some i => .ok ⟨h.maps.set i ((h.read (some i)).insert k v)⟩

/-- The assignments of a `range` loop, in order. -/
def assignAll (h : Heap) (target : Ref) : List (GoString × Any) → Except Panic Heap
  | [] => .ok h
  | (k, v) :: es => (h.assign target k v).bind (·.assignAll target es)

theorem read_alloc_of_lt (h : Heap) (m : GoMap Any) {i : Nat} (hi : i < h.maps.length) :
    (h.alloc m).1.read (some i) = h.read (some i) := by
  simp [alloc, read, List.getD_eq_getElem?_getD, List.getElem?_append_left hi]

theorem read_alloc_self (h : Heap) (m : GoMap Any) : (h.alloc m).1.read (h.alloc m).2 = m := by
  simp [alloc, read, List.getD_eq_getElem?_getD]

theorem read_set (h : Heap) {i : Nat} (hi : i < h.maps.length) (m : GoMap Any) (r : Ref) :
    Heap.read ⟨h.maps.set i m⟩ r = if r = some i then m else h.read r := by
  rcases r with _ | j
  · rfl
  · by_cases hj : j = i
    · subst hj
      simp [read, List.getD_eq_getElem?_getD, hi]
    · simp [read, List.getD_eq_getElem?_getD, List.getElem?_set_ne (Ne.symm hj), hj]

/-- A loop of assignments into an allocated map copies the entries into it and nothing else. -/
theorem assignAll_spec (h : Heap) {i : Nat} (hi : i < h.maps.length) :
    ∀ es : List (GoString × Any), ∃ h', h.assignAll (some i) es = .ok h' ∧
      h'.maps.length = h.maps.length ∧ ∀ r, h'.read r =
        if r = some i then es.foldl (fun m e => m.insert e.1 e.2) (h.read (some i)) else h.read r
  | [] => ⟨h, rfl, rfl, fun r => by split <;> simp_all⟩
  | (k, v) :: es => by
    obtain ⟨h', he, hlen, hr⟩ := assignAll_spec ⟨h.maps.set i ((h.read (some i)).insert k v)⟩
      (by simpa using hi) es
    refine ⟨h', he, by simpa using hlen, fun r => ?_⟩
    simp only [hr, read_set h hi, if_true, List.foldl_cons]
    split <;> rfl

end Heap

/-- Modelled from the spec: `fields.Copy` (package `fields` is not under `src/`). It assigns
every entry of `src` into `target` and returns `target`, which is how the dispatcher uses it to
"merge global fields under message fields into a new map". -/
def copy (h : Heap) (src target : Ref) : Except Panic (Heap × Ref) :=
  (h.assignAll target (h.read src).entries).map (·, target)

/-- `fields.Copy` into an allocated map writes `src` over it and leaves every other map. -/
theorem read_copy (h : Heap) (src : Ref) {i : Nat} (hi : i < h.maps.length) :
    ∃ h', copy h src (some i) = .ok (h', some i) ∧ h'.maps.length = h.maps.length ∧
      ∀ r, h'.read r =
        if r = some i then (h.read src).copyInto (h.read (some i)) else h.read r := by
  obtain ⟨h', he, hlen, hr⟩ := h.assignAll_spec hi (h.read src).entries
  exact ⟨h', by simp [copy, he, Except.map], hlen, fun r => by rw [hr]; rfl⟩

end Sypl
