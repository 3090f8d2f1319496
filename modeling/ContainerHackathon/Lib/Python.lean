import Mathlib

/-!
# Python

What Python's lists and numbers do where Lean's differ: an index or a slice
bound may be negative and then counts from the end, a slice never fails, and
`round` sends ties to the even neighbour.  A list built item by item, where
an item may raise, is `List.mapM` in `Option`.

* `slice_append_slice` — consecutive slices join;
* `flatMap_slice` — so do all slices of one length;
* `mapM_cons_eq_some_iff` — all items are built, or the list is not;
* `round_bounds` — rounding moves a number by at most one half.
-/

namespace Python

variable {α : Type*}

/-! ## items and slices -/

/-- Where a slice bound cuts a list of length `n`. -/
def cut (n : Nat) (i : Int) : Nat :=
  if i < 0 then (i + n).toNat else min i.toNat n

/-- `l[i]`; `none` is an `IndexError`. -/
def item? (l : List α) (i : Int) : Option α :=
  if i < 0 then
    if i + l.length < 0 then none else l[(i + l.length).toNat]?
  else l[i.toNat]?

/-- `l[a:b]`. -/
def slice (l : List α) (a b : Int) : List α :=
  (l.take (cut l.length b)).drop (cut l.length a)

theorem item?_natCast (l : List α) (i : Nat) : item? l i = l[i]? := by
  simp [item?]

@[simp] theorem cut_natCast (n i : Nat) : cut n (i : Int) = min i n := by
  simp [cut]

theorem slice_natCast (l : List α) (a b : Nat) : slice l a b = (l.take b).drop a := by
  rw [slice, cut_natCast, cut_natCast]
  rcases Nat.le_total b l.length with hb | hb
  · rw [Nat.min_eq_left hb]
    rcases Nat.le_total a l.length with ha | ha
    · rw [Nat.min_eq_left ha]
    · rw [Nat.min_eq_right ha, List.drop_eq_nil_of_le (by simp),
        List.drop_eq_nil_of_le (by simp; omega)]
  · rw [Nat.min_eq_right hb, List.take_length, List.take_of_length_le hb]
    rcases Nat.le_total a l.length with ha | ha
    · rw [Nat.min_eq_left ha]
    · rw [Nat.min_eq_right ha, List.drop_length, List.drop_eq_nil_of_le ha]

theorem length_slice (l : List α) (a b : Nat) : (slice l a b).length = min b l.length - a := by
  rw [slice_natCast, List.length_drop, List.length_take]

/-- A slice of items that are all there has the full length. -/
theorem length_slice_add {l : List α} {a k : Nat} (h : a + k ≤ l.length) :
    (slice l a ((a + k : Nat) : Int)).length = k := by
  rw [length_slice, Nat.min_eq_left h, Nat.add_sub_cancel_left]

/-- **Consecutive slices** join. -/
theorem slice_append_slice (l : List α) {a b c : Nat} (hab : a ≤ b) (hbc : b ≤ c) :
    slice l a b ++ slice l b c = slice l a c := by
  have hfirst : (l.take b).drop a = ((l.take c).drop a).take (b - a) := by
    rw [List.drop_take, List.drop_take, List.take_take, Nat.min_eq_left (by omega)]
  have hjoin := List.drop_take_append_drop (l.take c) a (b - a)
  rw [Nat.add_sub_cancel' hab] at hjoin
  rw [slice_natCast, slice_natCast, slice_natCast, hfirst, hjoin]

theorem slice_zero (l : List α) (b : Nat) : slice l 0 b = l.take b := by
  have h := slice_natCast l 0 b
  rwa [Nat.cast_zero, List.drop_zero] at h

/-- The first `m` slices of length `k` make up the first `m * k` items. -/
theorem flatMap_slice (l : List α) (k m : Nat) :
    (List.range m).flatMap (fun j => slice l ((j * k : Nat) : Int) (((j + 1) * k : Nat) : Int)) =
      l.take (m * k) := by
  induction m with
  | zero => simp
  | succ m ih =>
      rw [List.range_succ, List.flatMap_append, ih, List.flatMap_singleton, ← slice_zero,
        ← slice_zero]
      exact slice_append_slice l (Nat.zero_le _) (Nat.mul_le_mul_right k (Nat.le_succ m))

/-! ## lists built item by item -/

section mapM

variable {β : Type*} {f g : α → Option β} {x : α} {xs : List α} {ys : List β}

theorem mapM_cons_eq_some_iff : (x :: xs).mapM f = some ys ↔
    ∃ z zs, f x = some z ∧ xs.mapM f = some zs ∧ ys = z :: zs := by
  simp only [List.mapM_cons, Option.bind_eq_bind, Option.bind_eq_some_iff, Option.pure_def,
    Option.some.injEq]
  exact ⟨fun ⟨z, hz, zs, hzs, hys⟩ => ⟨z, zs, hz, hzs, hys.symm⟩,
    fun ⟨z, zs, hz, hzs, hys⟩ => ⟨z, hz, zs, hzs, hys.symm⟩⟩

theorem mapM_eq_some_of_forall (h : ∀ x y, f x = some y → g x = some y)
    (hxs : xs.mapM f = some ys) : xs.mapM g = some ys := by
  induction xs generalizing ys with
  | nil => simpa using hxs
  | cons x xs ih =>
      obtain ⟨z, zs, hz, hzs, rfl⟩ := mapM_cons_eq_some_iff.mp hxs
      exact mapM_cons_eq_some_iff.mpr ⟨z, zs, h x z hz, ih hzs, rfl⟩

theorem mapM_eq_replicate {b : β} (h : ∀ x ∈ xs, f x = some b) :
    xs.mapM f = some (List.replicate xs.length b) := by
  induction xs with
  | nil => rfl
  | cons x xs ih =>
      rw [List.forall_mem_cons] at h
      exact mapM_cons_eq_some_iff.mpr ⟨b, _, h.1, ih h.2, rfl⟩

theorem length_of_mapM (h : xs.mapM f = some ys) : ys.length = xs.length := by
  induction xs generalizing ys with
  | nil =>
      obtain rfl : ys = [] := by simpa using h.symm
      rfl
  | cons x xs ih =>
      obtain ⟨z, zs, -, hzs, rfl⟩ := mapM_cons_eq_some_iff.mp h
      rw [List.length_cons, List.length_cons, ih hzs]

end mapM

/-! ## round -/

/-- `round(q)` of an exact number: the nearest integer, the even one of two. -/
def round (q : ℚ) : Int :=
  if q - ⌊q⌋ < 1 / 2 then ⌊q⌋
  else if 1 / 2 < q - ⌊q⌋ then ⌊q⌋ + 1
  else if ⌊q⌋ % 2 = 0 then ⌊q⌋ else ⌊q⌋ + 1

theorem round_bounds (q : ℚ) : q - 1 / 2 ≤ round q ∧ (round q : ℚ) ≤ q + 1 / 2 := by
  have hlo := Int.floor_le q
  have hhi := Int.lt_floor_add_one q
  unfold round
  split_ifs <;> push_cast <;> constructor <;> linarith

end Python
