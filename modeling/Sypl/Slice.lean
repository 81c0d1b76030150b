import Mathlib.Data.List.Basic
import Mathlib.Data.List.GetD

/-!
# Go slices

A Go slice is a header over a backing array: the array, the offset of the slice's first element
in it, the length and the capacity. Assigning a slice, or passing it on as `xs...`, copies the
header, and the copies share the array. `append(s, xs...)` writes `xs` into the array of `s` right
after its elements when they fit in its capacity; otherwise it copies the elements of `s` and
`xs` into a new array, whose capacity the language leaves to the runtime (`grow`, with Go 1.19's
`growslice` as `growslice`).

* `append` reads back as the old elements followed by the new ones (`read_append_self`), and
  leaves the elements of every other header alone unless it wrote into their array, in place,
  under their window (`read_append_of_disjoint`).
* Two appends on copies of one header both write right after its elements: when both fit in the
  capacity, the first copy then reads what the second one wrote (`read_append_append`).
* `s[i] = v` is seen by every header whose window covers that element of the array
  (`read_store`). The loop `for i, o := range s { if c(o) { s[i] = v } }` replaces the elements of
  `s` that satisfy `c`, and every header that starts where `s` starts in its array reads the change
  on the elements it shares with `s` (`read_storeWhere`).
-/

namespace Sypl

/-- A slice header: a window of `len` elements from `offset` in the backing array `array`, which
`append` may extend in place up to `cap` elements. -/
structure Slice where
  array : Nat
  offset : Nat
  len : Nat
  cap : Nat
  deriving DecidableEq, Repr

/-- The backing arrays of a program's slices of one element type, by address. -/
abbrev Arrays (α : Type) := List (List α)

namespace Slice

variable {α : Type}

/-- The elements of `s`. -/
def read (arrays : Arrays α) (s : Slice) : List α :=
  ((arrays.getD s.array []).drop s.offset).take s.len

/-- A header of an allocated array, whose capacity lies in the array. -/
structure Valid (arrays : Arrays α) (s : Slice) : Prop where
  array_lt : s.array < arrays.length
  len_le : s.len ≤ s.cap
  cap_le : s.offset + s.cap ≤ (arrays.getD s.array []).length

instance (arrays : Arrays α) (s : Slice) : Decidable (Valid arrays s) :=
  decidable_of_iff (s.array < arrays.length ∧ s.len ≤ s.cap ∧
      s.offset + s.cap ≤ (arrays.getD s.array []).length)
    ⟨fun ⟨a, b, c⟩ => ⟨a, b, c⟩, fun ⟨a, b, c⟩ => ⟨a, b, c⟩⟩

/-- A new array holding `xs`, as a composite literal or the slice of a variadic call makes it:
length and capacity both `len(xs)`. -/
def alloc (arrays : Arrays α) (xs : List α) : Arrays α × Slice :=
  (arrays ++ [xs], ⟨arrays.length, 0, xs.length, xs.length⟩)

/-- `xs` copied into `a` from index `i`. -/
def writeAt (a : List α) (i : Nat) (xs : List α) : List α := a.take i ++ xs ++ a.drop (i + xs.length)

/-- `append(s, xs...)`. When `xs` fits in the capacity it is written into the array after the
elements of `s`; otherwise a new array holds the elements of `s` and `xs`, with room for at least
`grow cap(s) n` elements, `n` the new length, and zero values past them. -/
def append [Inhabited α] (grow : Nat → Nat → Nat) (arrays : Arrays α) (s : Slice) (xs : List α) :
    Arrays α × Slice :=
  if s.len + xs.length ≤ s.cap then
    (arrays.set s.array (writeAt (arrays.getD s.array []) (s.offset + s.len) xs),
      { s with len := s.len + xs.length })
  else
    let n := s.len + xs.length
    let c := max n (grow s.cap n)
    (arrays ++ [read arrays s ++ xs ++ List.replicate (c - n) default], ⟨arrays.length, 0, n, c⟩)

/-- `s[i] = v`, for `i < len(s)`. -/
def store (arrays : Arrays α) (s : Slice) (i : Nat) (v : α) : Arrays α :=
  arrays.set s.array ((arrays.getD s.array []).set (s.offset + i) v)

/-- One iteration of `for i, o := range s { if c(o) { s[i] = v } }`: `o` is the element at `i`
when the loop reaches it. -/
def storeStep [Inhabited α] (c : α → Bool) (v : α) (s : Slice) (arrays : Arrays α) (i : Nat) :
    Arrays α :=
  if c ((read arrays s).getD i default) then store arrays s i v else arrays

/-- The loop `for i, o := range s { if c(o) { s[i] = v } }`; the range expression is evaluated
once. -/
def storeWhere [Inhabited α] (c : α → Bool) (v : α) (arrays : Arrays α) (s : Slice) : Arrays α :=
  (List.range s.len).foldl (storeStep c v s) arrays

/-! ## Reading the arrays -/

theorem getD_set_self {arrays : Arrays α} {i : Nat} (hi : i < arrays.length) (a : List α) :
    (arrays.set i a).getD i [] = a := by
  simp [List.getD_eq_getElem?_getD, hi]

theorem getD_set_ne (arrays : Arrays α) {i j : Nat} (h : i ≠ j) (a : List α) :
    (arrays.set i a).getD j [] = arrays.getD j [] := by
  simp [List.getD_eq_getElem?_getD, List.getElem?_set_ne h]

theorem getD_append_of_lt {arrays : Arrays α} {j : Nat} (hj : j < arrays.length) (a : List α) :
    (arrays ++ [a]).getD j [] = arrays.getD j [] := by
  simp [List.getD_eq_getElem?_getD, List.getElem?_append_left hj]

theorem getD_append_self (arrays : Arrays α) (a : List α) :
    (arrays ++ [a]).getD arrays.length [] = a := by
  simp [List.getD_eq_getElem?_getD]

theorem length_read {arrays : Arrays α} {s : Slice} (hs : Valid arrays s) :
    (read arrays s).length = s.len := by
  have := hs.cap_le; have := hs.len_le
  simp only [read, List.length_take, List.length_drop]; omega

theorem Valid.of_alloc {arrays : Arrays α} {t : Slice} (ht : Valid arrays t) (xs : List α) :
    Valid (alloc arrays xs).1 t :=
  ⟨by simpa [alloc] using Nat.lt_succ_of_lt ht.array_lt, ht.len_le,
    by rw [alloc, getD_append_of_lt ht.array_lt]; exact ht.cap_le⟩

theorem Valid.alloc (arrays : Arrays α) (xs : List α) :
    Valid (alloc arrays xs).1 (alloc arrays xs).2 :=
  ⟨by simp [Slice.alloc], le_rfl, by simp [Slice.alloc, getD_append_self]⟩

theorem read_alloc {arrays : Arrays α} {t : Slice} (ht : Valid arrays t) (xs : List α) :
    read (alloc arrays xs).1 t = read arrays t := by
  rw [alloc, read, read, getD_append_of_lt ht.array_lt]

theorem read_alloc_self (arrays : Arrays α) (xs : List α) :
    read (alloc arrays xs).1 (alloc arrays xs).2 = xs := by
  rw [alloc, read, getD_append_self, List.drop_zero, List.take_length]

/-! ## Writing into an array -/

section WriteAt

variable {a : List α} {i : Nat} {xs : List α}

theorem length_writeAt (h : i + xs.length ≤ a.length) : (writeAt a i xs).length = a.length := by
  simp only [writeAt, List.length_append, List.length_take, List.length_drop]; omega

theorem take_writeAt {k : Nat} (hk : k ≤ i) (hi : i ≤ a.length) :
    (writeAt a i xs).take k = a.take k := by
  rw [writeAt, List.append_assoc, List.take_append_of_le_length (by simp; omega), List.take_take,
    min_eq_left hk]

theorem drop_writeAt {k : Nat} (hk : i + xs.length ≤ k) (hi : i ≤ a.length) :
    (writeAt a i xs).drop k = a.drop k := by
  rw [writeAt, List.drop_append_eq_append_drop, List.drop_eq_nil_of_le (by simp; omega),
    List.nil_append, List.drop_drop]
  congr 1
  simp; omega

/-- A window that ends before the written text reads as before. -/
theorem window_writeAt_of_le {k m : Nat} (h : k + m ≤ i) (hi : i ≤ a.length) :
    ((writeAt a i xs).drop k).take m = (a.drop k).take m := by
  rw [List.take_drop, List.take_drop, take_writeAt h hi]

/-- A window from `k ≤ i`: what it had before `i`, then the written text and what follows it. -/
theorem window_writeAt_of_ge {k m : Nat} (hk : k ≤ i) (hm : i ≤ k + m) (hi : i ≤ a.length) :
    ((writeAt a i xs).drop k).take m =
      (a.drop k).take (i - k) ++ (xs ++ a.drop (i + xs.length)).take (m - (i - k)) := by
  have hlen : ((a.take i).drop k).length = i - k := by simp; omega
  rw [writeAt, List.append_assoc, List.drop_append_of_le_length (by simp; omega),
    List.take_append_eq_append_take, hlen, List.drop_take, List.take_take]
  rw [min_eq_right (by omega)]

end WriteAt

/-! ## `append` -/

section Append

variable [Inhabited α] (grow : Nat → Nat → Nat) {arrays : Arrays α} {s t : Slice} (xs : List α)

/-- `append` keeps every array it does not write the same length, and allocates past them. -/
theorem getD_append_fst (hs : Valid arrays s) {j : Nat} (hj : j < arrays.length) :
    ((append grow arrays s xs).1.getD j []).length = (arrays.getD j []).length := by
  unfold append
  split_ifs with h
  · by_cases hjs : s.array = j
    · subst hjs
      rw [getD_set_self hj, length_writeAt (by have := hs.cap_le; omega)]
    · rw [getD_set_ne _ hjs]
  · rw [getD_append_of_lt hj]

theorem length_append_fst : arrays.length ≤ (append grow arrays s xs).1.length := by
  unfold append
  split_ifs <;> simp

theorem Valid.of_append (hs : Valid arrays s) (ht : Valid arrays t) :
    Valid (append grow arrays s xs).1 t :=
  ⟨lt_of_lt_of_le ht.array_lt (length_append_fst grow xs), ht.len_le,
    (getD_append_fst grow xs hs ht.array_lt).symm ▸ ht.cap_le⟩

theorem Valid.append (hs : Valid arrays s) :
    Valid (append grow arrays s xs).1 (append grow arrays s xs).2 := by
  unfold Slice.append
  split_ifs with h
  · refine ⟨by simpa using hs.array_lt, h, ?_⟩
    rw [getD_set_self hs.array_lt, length_writeAt (by have := hs.cap_le; omega)]
    exact hs.cap_le
  · refine ⟨by simp, le_max_left _ _, ?_⟩
    simp only [getD_append_self, List.length_append, List.length_replicate, length_read hs]
    omega

/-- `append` writes in place, in the array of `s`, or allocates the next array. -/
theorem array_append :
    (append grow arrays s xs).2.array =
      if s.len + xs.length ≤ s.cap then s.array else arrays.length := by
  unfold append
  split_ifs <;> rfl

/-- `append` reads back as the old elements followed by the new ones. -/
theorem read_append_self (hs : Valid arrays s) :
    read (append grow arrays s xs).1 (append grow arrays s xs).2 = read arrays s ++ xs := by
  have hcap := hs.cap_le
  unfold append
  split_ifs with h
  · simp only [read, getD_set_self hs.array_lt]
    rw [window_writeAt_of_ge (Nat.le_add_right _ _) (by omega) (by omega)]
    simp
  · have hlen : (read arrays s ++ xs).length = s.len + xs.length := by
      rw [List.length_append, length_read hs]
    rw [read, getD_append_self, List.drop_zero, List.take_append_of_le_length hlen.ge,
      List.take_of_length_le hlen.le]

/-- `append` leaves the elements of another header alone unless it writes into their array, in
place, under their window. -/
theorem read_append_of_disjoint (hs : Valid arrays s) (ht : Valid arrays t)
    (h : t.array ≠ s.array ∨ s.cap < s.len + xs.length ∨ t.offset + t.len ≤ s.offset + s.len ∨
      s.offset + s.len + xs.length ≤ t.offset) :
    read (append grow arrays s xs).1 t = read arrays t := by
  have hi : s.offset + s.len ≤ (arrays.getD s.array []).length := by
    have := hs.cap_le; have := hs.len_le; omega
  unfold append
  split_ifs with hfit
  · by_cases harr : t.array = s.array
    · simp only [read, harr, getD_set_self hs.array_lt]
      rcases h with h | h | h | h
      · exact absurd harr h
      · omega
      · exact window_writeAt_of_le h hi
      · rw [drop_writeAt h hi]
    · simp only [read, getD_set_ne _ (Ne.symm harr)]
  · simp only [read, getD_append_of_lt ht.array_lt]

/-- An in-place `append` seen through a header of the same array and offset whose window reaches
the write: the elements of `s`, then what was written, then the header's own elements. -/
theorem read_append_of_prefix (hs : Valid arrays s) (harr : t.array = s.array)
    (hoff : t.offset = s.offset) (hlen : s.len ≤ t.len) (hfit : s.len + xs.length ≤ s.cap) :
    read (append grow arrays s xs).1 t =
      read arrays s ++ (xs ++ (read arrays t).drop (s.len + xs.length)).take (t.len - s.len) := by
  have hi : s.offset + s.len ≤ (arrays.getD s.array []).length := by
    have := hs.cap_le; have := hs.len_le; omega
  rw [append, if_pos hfit]
  simp only [read, harr, hoff, getD_set_self hs.array_lt]
  rw [window_writeAt_of_ge (Nat.le_add_right _ _) (by omega) hi, Nat.add_sub_cancel_left,
    List.drop_take, List.drop_drop, List.take_append_eq_append_take,
    @List.take_append_eq_append_take _ _ (List.take _ _), List.take_take, Nat.add_assoc]
  congr 3
  omega

/-- Two appends on copies of one header both write right after its elements. The second copy
reads its elements and its own; the first reads what the second wrote over its own when both fit
in the capacity, and its own elements otherwise. -/
theorem read_append_append (hs : Valid arrays s) (ys : List α) :
    let first := append grow arrays s xs
    let second := append grow first.1 s ys
    read second.1 second.2 = read arrays s ++ ys ∧
      read second.1 first.2 = read arrays s ++
        if s.len + xs.length ≤ s.cap ∧ s.len + ys.length ≤ s.cap
        then (ys ++ xs.drop ys.length).take xs.length else xs := by
  intro first second
  have hs1 : Valid first.1 s := hs.of_append grow xs hs
  have hread : read first.1 s = read arrays s :=
    read_append_of_disjoint grow xs hs hs (.inr (.inr (.inl le_rfl)))
  have hself : read first.1 first.2 = read arrays s ++ xs := read_append_self grow xs hs
  refine ⟨by rw [read_append_self grow ys hs1, hread], ?_⟩
  by_cases hx : s.len + xs.length ≤ s.cap
  · have h2 : first.2 = { s with len := s.len + xs.length } := by simp [first, append, hx]
    by_cases hy : s.len + ys.length ≤ s.cap
    · have hdrop : (read arrays s ++ xs).drop (s.len + ys.length) = xs.drop ys.length := by
        rw [← length_read hs, List.drop_append]
      rw [if_pos ⟨hx, hy⟩, read_append_of_prefix grow ys hs1 (by rw [h2]) (by rw [h2])
        (by rw [h2]; exact Nat.le_add_right _ _) hy, hread, hself, hdrop, h2]
      simp only [Nat.add_sub_cancel_left]
    · rw [if_neg (fun h => hy h.2), read_append_of_disjoint grow ys hs1 (hs.append grow xs)
        (.inr (.inl (by omega))), hself]
  · have h2 : first.2.array = arrays.length := by simp [first, append, hx]
    rw [if_neg (fun h => hx h.1), read_append_of_disjoint grow ys hs1 (hs.append grow xs)
      (.inl (by rw [h2]; exact (Nat.ne_of_lt hs.array_lt).symm)), hself]

end Append

/-! ## `s[i] = v` -/

section Store

variable {arrays : Arrays α} {s t : Slice}

theorem Valid.of_store (hs : Valid arrays s) (ht : Valid arrays t) (i : Nat) (v : α) :
    Valid (store arrays s i v) t := by
  refine ⟨by simpa [store] using ht.array_lt, ht.len_le, ?_⟩
  by_cases harr : s.array = t.array
  · rw [store, harr, getD_set_self (harr ▸ hs.array_lt), List.length_set]
    exact ht.cap_le
  · rw [store, getD_set_ne _ harr]
    exact ht.cap_le

/-- `s[i] = v` is seen by every header of the array whose window covers the element. -/
theorem read_store (hs : Valid arrays s) (i : Nat) (v : α) :
    read (store arrays s i v) t =
      if t.array = s.array ∧ t.offset ≤ s.offset + i then (read arrays t).set (s.offset + i - t.offset) v
      else read arrays t := by
  by_cases harr : t.array = s.array
  · simp only [read, store, harr, getD_set_self hs.array_lt, true_and, List.drop_set]
    split_ifs <;> first | omega | rfl | exact List.set_take
  · simp only [read, store, getD_set_ne _ (Ne.symm harr), harr, false_and, if_false]

end Store

/-! ## The store loop -/

/-- A range loop runs its body once more at the last index. -/
theorem foldl_range_succ {β : Type} (f : β → Nat → β) (b : β) (k : Nat) :
    (List.range (k + 1)).foldl f b = f ((List.range k).foldl f b) k := by
  rw [List.range_succ, List.foldl_append, List.foldl_cons, List.foldl_nil]

/-- The window of the loop's invariant after one more index: the element there is replaced when
it satisfies `c`. -/
theorem map_ite_take_succ {L : List α} (c : α → Bool) (v : α) {k : Nat} (hk : k < L.length) :
    (L.take (k + 1)).map (fun o => if c o then v else o) ++ L.drop (k + 1) =
      if c L[k] then ((L.take k).map (fun o => if c o then v else o) ++ L.drop k).set k v
      else (L.take k).map (fun o => if c o then v else o) ++ L.drop k := by
  split_ifs with hc <;> apply List.ext_getElem (by simp only [List.length_append, List.length_map,
    List.length_take, List.length_drop, List.length_set]; omega) <;> intro j h₁ h₂ <;>
    simp only [List.getElem_set, List.getElem_append, List.getElem_map, List.getElem_take,
      List.getElem_drop, List.length_map, List.length_take] <;>
    split_ifs <;> first | omega | rfl | (congr 1; omega) | ((obtain rfl : k = j := by omega); simp_all)

theorem getD_map_take_append_drop (L : List α) (g : α → α) (k : Nat) (d : α) :
    ((L.take k).map g ++ L.drop k).getD k d = L.getD k d := by
  have hl : ((L.take k).map g).length ≤ k := by
    rw [List.length_map, List.length_take]
    exact Nat.min_le_left _ _
  rw [List.getD_append_right _ _ _ _ hl, List.getD_eq_getElem?_getD, List.getD_eq_getElem?_getD,
    List.getElem?_drop]
  simp only [List.length_map, List.length_take]
  rcases le_or_lt k L.length with h | h
  · rw [min_eq_left h, Nat.sub_self, Nat.add_zero]
  · rw [List.getElem?_eq_none (by omega), List.getElem?_eq_none (by omega)]

theorem take_map_take_append_drop (L : List α) (g : α → α) (n : Nat) :
    ((L.take n).map g ++ L.drop n).take n = (L.take n).map g ∧
      ((L.take n).map g ++ L.drop n).drop n = L.drop n := by
  rcases le_total n L.length with h | h
  · have hl : ((L.take n).map g).length = n := by simp [h]
    exact ⟨List.take_left' hl, List.drop_left' hl⟩
  · have hl : ((L.take n).map g).length ≤ n := by
      rw [List.length_map, List.length_take]
      exact Nat.min_le_left _ _
    rw [List.drop_of_length_le h, List.append_nil, List.take_of_length_le hl, List.drop_of_length_le hl]
    exact ⟨rfl, rfl⟩

section StoreWhere

variable [Inhabited α] (c : α → Bool) (v : α) {arrays : Arrays α} {s t : Slice}

theorem Valid.foldl_storeStep (hs : Valid arrays s) (ht : Valid arrays t) (k : Nat) :
    Valid ((List.range k).foldl (storeStep c v s) arrays) t := by
  suffices Valid ((List.range k).foldl (storeStep c v s) arrays) s ∧
      Valid ((List.range k).foldl (storeStep c v s) arrays) t from this.2
  induction k with
  | zero => exact ⟨hs, ht⟩
  | succ k ih =>
    rw [List.range_succ, List.foldl_append, List.foldl_cons, List.foldl_nil, storeStep]
    split_ifs
    · exact ⟨ih.1.of_store ih.1 k v, ih.1.of_store ih.2 k v⟩
    · exact ih

theorem Valid.storeWhere (hs : Valid arrays s) (ht : Valid arrays t) :
    Valid (storeWhere c v arrays s) t :=
  hs.foldl_storeStep c v ht s.len

theorem read_storeWhere_of_ne (hs : Valid arrays s) (ht : t.array ≠ s.array) :
    read (storeWhere c v arrays s) t = read arrays t := by
  suffices ∀ k, read ((List.range k).foldl (storeStep c v s) arrays) t = read arrays t from this _
  intro k
  induction k with
  | zero => rfl
  | succ k ih =>
    rw [List.range_succ, List.foldl_append, List.foldl_cons, List.foldl_nil, storeStep]
    split_ifs
    · rw [read_store (hs.foldl_storeStep c v hs k), if_neg (fun h => ht h.1), ih]
    · exact ih

/-- The loop puts `v` at each element of `s` that satisfies `c`; a slice that starts where `s`
starts in its array reads the change on the elements it shares with `s`. -/
theorem read_storeWhere (hs : Valid arrays s) (ht : t.array = s.array) (hoff : t.offset = s.offset) :
    read (storeWhere c v arrays s) t =
      ((read arrays t).take s.len).map (fun o => if c o then v else o) ++ (read arrays t).drop s.len := by
  suffices ∀ k ≤ s.len, ∀ t : Slice, t.array = s.array → t.offset = s.offset →
      read ((List.range k).foldl (storeStep c v s) arrays) t =
        ((read arrays t).take k).map (fun o => if c o then v else o) ++ (read arrays t).drop k from
    this _ le_rfl t ht hoff
  intro k hk
  induction k with
  | zero => intro t _ _; rfl
  | succ k ih =>
    intro t ht hoff
    have hk' : k < (read arrays s).length := by rw [length_read hs]; omega
    have hwin : ∀ (h₁ : k < (read arrays t).length), (read arrays t)[k] = (read arrays s)[k] := by
      intro h₁
      simp only [read, ht, hoff, List.getElem_take]
    rw [List.range_succ, List.foldl_append, List.foldl_cons, List.foldl_nil, storeStep,
      ih (by omega) s rfl rfl, getD_map_take_append_drop, List.getD_eq_getElem _ _ hk']
    have hst : read (store ((List.range k).foldl (storeStep c v s) arrays) s k v) t =
        (((read arrays t).take k).map (fun o => if c o then v else o) ++ (read arrays t).drop k).set k v := by
      rw [read_store (hs.foldl_storeStep c v hs k), if_pos ⟨ht, by omega⟩, ih (by omega) t ht hoff, hoff,
        Nat.add_sub_cancel_left]
    by_cases hkt : k < (read arrays t).length
    · rw [map_ite_take_succ c v hkt, hwin hkt]
      split_ifs
      · exact hst
      · exact ih (by omega) t ht hoff
    · rw [List.take_of_length_le (by omega), List.drop_of_length_le (by omega)]
      split_ifs
      · rw [hst, List.set_eq_of_length_le (by simp; omega), List.take_of_length_le (by omega),
          List.drop_of_length_le (by omega)]
      · rw [ih (by omega) t ht hoff, List.take_of_length_le (by omega), List.drop_of_length_le (by omega)]

end StoreWhere

/-! ## The runtime's growth -/

/-- The object sizes of the size classes of Go's allocator (`runtime/sizeclasses.go`), in bytes. -/
def sizeClasses : List Nat :=
  [0, 8, 16, 24, 32, 48, 64, 80, 96, 112, 128, 144, 160, 176, 192, 208, 224, 240, 256, 288, 320,
    352, 384, 416, 448, 480, 512, 576, 640, 704, 768, 896, 1024, 1152, 1280, 1408, 1536, 1792,
    2048, 2304, 2688, 3072, 3200, 3456, 4096, 4864, 5376, 6144, 6528, 6784, 6912, 8192, 9472,
    9728, 10240, 10880, 12288, 13568, 14336, 16384, 18432, 19072, 20480, 21760, 24576, 27264,
    28672, 32768]

/-- `roundupsize(size)`: the smallest size class that holds `size` bytes, or past the largest
class `size` rounded up to whole 8192-byte pages. -/
def roundupsize (size : Nat) : Nat :=
  if size < 32768 then (sizeClasses.find? (size ≤ ·)).getD size
  else (size + 8191) / 8192 * 8192

/-- The loop of `growslice` past 256 elements: grow by a quarter and 192 elements until `cap`
fits, at most `fuel` times. -/
def growLoop : Nat → Nat → Nat → Nat
  | 0, newcap, _ => newcap
  | fuel + 1, newcap, cap => if newcap < cap then growLoop fuel (newcap + (newcap + 768) / 4) cap
    else newcap

/-- `growslice` of Go 1.19 for elements of 16 bytes (strings and interfaces): the capacity of the
new array for a slice of capacity `oldCap` that must hold `cap` elements. Below 256 elements the
capacity doubles; the size is then rounded up to a size class. -/
def growslice (oldCap cap : Nat) : Nat :=
  let newcap := if cap > oldCap + oldCap then cap
    else if oldCap < 256 then oldCap + oldCap
    else growLoop cap oldCap cap
  roundupsize (newcap * 16) / 16

end Slice

end Sypl
