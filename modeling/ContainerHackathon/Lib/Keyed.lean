import Mathlib

/-!
# Keyed

Lists whose entries carry a key, at most one entry a key: tables, and caches
kept in the order of use.  `touch` moves an entry to the front, `use` adds one
or moves it there.

All operations look at nothing but keys, so they commute with any change of
the entries that keeps these (`lookup_map`, `without_map`, `touch_map`,
`use_map`).
-/

namespace Keyed

variable {ε φ κ : Type*} [DecidableEq κ] {key : ε → κ} {l : List ε} {e : ε} {j k : κ}

def lookup (key : ε → κ) (k : κ) (l : List ε) : Option ε := l.find? (key · = k)

def without (key : ε → κ) (k : κ) (l : List ε) : List ε := l.filter (key · ≠ k)

/-- Move the entry of a key to the front. -/
def touch (key : ε → κ) (k : κ) (l : List ε) : List ε :=
  match lookup key k l with
  | none => l
  | some e => e :: without key k l

/-- The most recently used entry comes first; a new one takes the place of the
last one when the list is full. -/
def use (key : ε → κ) (capacity : Nat) (e : ε) (l : List ε) : List ε :=
  match lookup key (key e) l with
  | some _ => touch key (key e) l
  | none => e :: if l.length = capacity then l.dropLast else l

/-! ## lookup -/

theorem lookup_eq_some (hl : (l.map key).Nodup) : lookup key k l = some e ↔ e ∈ l ∧ key e = k := by
  constructor
  · intro h
    exact ⟨List.mem_of_find?_eq_some h, by simpa using List.find?_some h⟩
  · rintro ⟨he, rfl⟩
    induction l with
    | nil => cases he
    | cons x l ih =>
        rw [List.map_cons, List.nodup_cons] at hl
        rcases List.mem_cons.mp he with rfl | he
        · simp [lookup]
        · have hne : key x ≠ key e := fun h => hl.1 (h ▸ List.mem_map_of_mem he)
          rw [lookup, List.find?_cons_of_neg (by simpa using hne)]
          exact ih hl.2 he

theorem lookup_eq_none : lookup key k l = none ↔ k ∉ l.map key := by
  simp [lookup, List.find?_eq_none]

theorem exists_lookup (h : k ∈ l.map key) : ∃ e, lookup key k l = some e := by
  refine Option.ne_none_iff_exists'.mp fun hnone => ?_
  exact lookup_eq_none.mp hnone h

theorem key_of_lookup (h : lookup key k l = some e) : key e = k := by
  simpa using List.find?_some h

theorem mem_of_lookup (h : lookup key k l = some e) : e ∈ l := List.mem_of_find?_eq_some h

theorem lookup_append {l' : List ε} (h : lookup key k l = some e) :
    lookup key k (l ++ l') = some e := by
  rw [lookup, List.find?_append]
  exact Option.or_eq_some_iff.mpr (.inl h)

theorem lookup_map {f : ε → φ} {key' : φ → κ} (hf : ∀ e, key' (f e) = key e) :
    lookup key' k (l.map f) = (lookup key k l).map f := by
  rw [lookup, List.find?_map]
  simp only [Function.comp_def, hf]
  rfl

/-! ## without -/

theorem mem_without : e ∈ without key k l ↔ e ∈ l ∧ key e ≠ k := by
  simp [without]

theorem map_key_without : (without key k l).map key = (l.map key).filter (· ≠ k) := by
  rw [without, List.filter_map]
  rfl

theorem mem_map_key_without : j ∈ (without key k l).map key ↔ j ∈ l.map key ∧ j ≠ k := by
  rw [map_key_without, List.mem_filter, decide_eq_true_eq]

theorem nodup_without (hl : (l.map key).Nodup) : ((without key k l).map key).Nodup := by
  rw [map_key_without]
  exact hl.filter _

theorem lookup_without (h : j ≠ k) : lookup key j (without key k l) = lookup key j l := by
  rw [lookup, without, List.find?_filter]
  congr 1
  funext e
  by_cases he : key e = j
  · simp [he, h]
  · simp [he]

theorem without_map {f : ε → φ} {key' : φ → κ} (hf : ∀ e, key' (f e) = key e) :
    without key' k (l.map f) = (without key k l).map f := by
  rw [without, List.filter_map]
  simp only [Function.comp_def, hf]
  rfl

theorem without_eq_self (h : k ∉ l.map key) : without key k l = l := by
  rw [without, List.filter_eq_self]
  intro e he
  exact decide_eq_true fun hk => h (hk ▸ List.mem_map_of_mem he)

/-- An entry and the others make up the list. -/
theorem cons_without_perm (hl : (l.map key).Nodup) (he : e ∈ l) :
    (e :: without key (key e) l).Perm l := by
  induction l with
  | nil => cases he
  | cons x l ih =>
      rw [List.map_cons, List.nodup_cons] at hl
      rcases List.mem_cons.mp he with rfl | he
      · have hself : without key (key e) (e :: l) = l := by
          rw [without, List.filter_cons_of_neg (by simp)]
          exact without_eq_self hl.1
        rw [hself]
      · have hne : key x ≠ key e := fun h => hl.1 (h ▸ List.mem_map_of_mem he)
        have hcons : without key (key e) (x :: l) = x :: without key (key e) l := by
          rw [without, List.filter_cons_of_pos (by simpa using hne)]
          rfl
        rw [hcons]
        exact (List.Perm.swap x e _).trans ((ih hl.2 he).cons x)

theorem length_without (hl : (l.map key).Nodup) (he : e ∈ l) :
    (without key (key e) l).length + 1 = l.length := by
  rw [← (cons_without_perm hl he).length_eq, List.length_cons]

/-! ## touch -/

theorem touch_perm (hl : (l.map key).Nodup) : (touch key k l).Perm l := by
  rw [touch]
  split
  · exact .refl l
  · next h =>
    obtain ⟨he, rfl⟩ := (lookup_eq_some hl).mp h
    exact cons_without_perm hl he

theorem foldl_touch_perm (hl : (l.map key).Nodup) (ks : List κ) :
    (ks.foldl (fun l k => touch key k l) l).Perm l := by
  induction ks generalizing l with
  | nil => exact .refl l
  | cons k ks ih =>
      have hperm : (touch key k l).Perm l := touch_perm hl
      exact (ih ((hperm.map key).nodup_iff.mpr hl)).trans hperm

theorem touch_map {f : ε → φ} {key' : φ → κ} (hf : ∀ e, key' (f e) = key e) :
    touch key' k (l.map f) = (touch key k l).map f := by
  rw [touch, touch, lookup_map hf]
  cases h : lookup key k l with
  | none => rfl
  | some e => simp only [Option.map_some, List.map_cons, without_map hf]

/-! ## use -/

theorem use_of_mem (capacity : Nat) (h : key e ∈ l.map key) :
    use key capacity e l = touch key (key e) l := by
  obtain ⟨x, hx⟩ := exists_lookup h
  rw [use, hx]

theorem use_of_notMem (capacity : Nat) (h : key e ∉ l.map key) :
    use key capacity e l = e :: if l.length = capacity then l.dropLast else l := by
  rw [use, lookup_eq_none.mpr h]

theorem mem_of_mem_use {x : ε} {capacity : Nat} (hl : (l.map key).Nodup)
    (h : x ∈ use key capacity e l) : x = e ∨ x ∈ l := by
  by_cases hmem : key e ∈ l.map key
  · rw [use_of_mem capacity hmem] at h
    exact .inr ((touch_perm hl).mem_iff.mp h)
  · rw [use_of_notMem capacity hmem, List.mem_cons] at h
    refine h.imp_right fun h => ?_
    split at h
    · exact List.mem_of_mem_dropLast h
    · exact h

theorem nodup_use {capacity : Nat} (hl : (l.map key).Nodup) :
    ((use key capacity e l).map key).Nodup := by
  by_cases hmem : key e ∈ l.map key
  · rw [use_of_mem capacity hmem]
    exact ((touch_perm hl).map key).nodup_iff.mpr hl
  · rw [use_of_notMem capacity hmem, List.map_cons, List.nodup_cons]
    split
    · rw [List.map_dropLast]
      exact ⟨fun h => hmem (List.mem_of_mem_dropLast h), hl.sublist (List.dropLast_sublist _)⟩
    · exact ⟨hmem, hl⟩

theorem length_use_le {capacity : Nat} (hl : (l.map key).Nodup) (h : l.length ≤ capacity)
    (hpos : 0 < capacity) : (use key capacity e l).length ≤ capacity := by
  by_cases hmem : key e ∈ l.map key
  · rw [use_of_mem capacity hmem, (touch_perm hl).length_eq]
    exact h
  · rw [use_of_notMem capacity hmem, List.length_cons]
    split
    · rw [List.length_dropLast]
      omega
    · omega

theorem length_foldl_use_le {capacity : Nat} {es : List ε} (hl : (l.map key).Nodup)
    (h : l.length ≤ capacity) (hpos : 0 < capacity) :
    (es.foldl (fun l e => use key capacity e l) l).length ≤ capacity := by
  induction es generalizing l with
  | nil => exact h
  | cons e es ih => exact ih (nodup_use hl) (length_use_le hl h hpos)

theorem mem_of_mem_foldl_use {x : ε} {capacity : Nat} {es : List ε} (hl : (l.map key).Nodup)
    (h : x ∈ es.foldl (fun l e => use key capacity e l) l) : x ∈ l ∨ x ∈ es := by
  induction es generalizing l with
  | nil => exact .inl h
  | cons e es ih =>
      rcases ih (nodup_use hl) h with h | h
      · rcases mem_of_mem_use hl h with rfl | h
        · exact .inr List.mem_cons_self
        · exact .inl h
      · exact .inr (List.mem_cons_of_mem e h)

theorem use_map {f : ε → φ} {key' : φ → κ} (hf : ∀ e, key' (f e) = key e) (capacity : Nat) :
    use key' capacity (f e) (l.map f) = (use key capacity e l).map f := by
  rw [use, use, hf, lookup_map hf]
  cases h : lookup key (key e) l with
  | some x => exact touch_map hf
  | none =>
      simp only [Option.map_none, List.map_cons, List.length_map]
      split
      · rw [List.map_dropLast]
      · rfl

/-! ## the order of use -/

/-- The keys that were used, the most recently used first. -/
def recency (ks : List κ) : List κ := ks.foldl (fun l k => k :: l.filter (· ≠ k)) []

theorem take_filter_ne {ks : List κ} (h : ks.Nodup) {n : Nat} (hk : k ∈ ks.take (n + 1)) :
    (ks.filter (· ≠ k)).take n = (ks.take (n + 1)).filter (· ≠ k) := by
  obtain ⟨before, after, hsplit⟩ := List.append_of_mem (List.mem_of_mem_take hk)
  subst hsplit
  have hfresh : ∀ j ∈ before ++ after, j ≠ k := fun j hj hjk => by
    rw [List.nodup_middle, List.nodup_cons] at h
    exact h.1 (hjk ▸ hj)
  have hbefore : before.filter (· ≠ k) = before :=
    List.filter_eq_self.mpr fun j hj => decide_eq_true (hfresh j (List.mem_append_left _ hj))
  have hafter : ∀ m, (after.take m).filter (· ≠ k) = after.take m := fun m =>
    List.filter_eq_self.mpr fun j hj =>
      decide_eq_true (hfresh j (List.mem_append_right _ (List.mem_of_mem_take hj)))
  have hlength : before.length ≤ n := by
    by_contra hlt
    rw [List.take_append_of_le_length (by omega)] at hk
    exact hfresh k (List.mem_append_left _ (List.mem_of_mem_take hk)) rfl
  have hall := hafter after.length
  rw [List.take_length] at hall
  have htake : ∀ m, before.length ≤ m → before.take m = before := fun m => List.take_of_length_le
  rw [List.filter_append, List.filter_cons_of_neg (by simp), hbefore, hall, List.take_append,
    List.take_append, List.filter_append, htake n hlength, htake (n + 1) (by omega), hbefore,
    show n + 1 - before.length = (n - before.length) + 1 by omega, List.take_succ_cons,
    List.filter_cons_of_neg (by simp), hafter]

/-- **A full list keeps the most recently used keys**: it is the beginning of
the list that nothing is evicted from. -/
theorem map_key_use {ks : List κ} {capacity : Nat} (hpos : 0 < capacity) (h : ks.Nodup)
    (hl : l.map key = ks.take capacity) : (use key capacity e l).map key =
      (key e :: ks.filter (· ≠ key e)).take capacity := by
  obtain ⟨n, rfl⟩ : ∃ n, capacity = n + 1 := ⟨capacity - 1, by omega⟩
  rw [List.take_succ_cons]
  by_cases hmem : key e ∈ l.map key
  · obtain ⟨x, hx⟩ := exists_lookup hmem
    rw [use_of_mem _ hmem, touch, hx, List.map_cons, map_key_without, key_of_lookup hx, hl,
      take_filter_ne h (hl ▸ hmem)]
  · rw [use_of_notMem _ hmem, List.map_cons]
    congr 1
    have hlength : l.length = min (n + 1) ks.length := by
      have hkeys : (l.map key).length = l.length := List.length_map key
      rw [← hkeys, hl, List.length_take]
    have hkept : (ks.take (n + 1)).filter (· ≠ key e) = ks.take (n + 1) :=
      List.filter_eq_self.mpr fun j hj => decide_eq_true fun hj' => hmem (hl ▸ hj' ▸ hj)
    have htake : (ks.filter (· ≠ key e)).take n = ks.take n := by
      conv_lhs => rw [← List.take_append_drop (n + 1) ks, List.filter_append, hkept]
      by_cases hlt : ks.length ≤ n
      · rw [List.drop_eq_nil_of_le (by omega), List.filter_nil, List.append_nil, List.take_take,
          min_eq_left (by omega)]
      · rw [List.take_append_of_le_length (by rw [List.length_take]; omega), List.take_take,
          min_eq_left (by omega)]
    rw [htake]
    split
    · next hfull =>
      rw [List.map_dropLast, hl, List.dropLast_eq_take, List.take_take, List.length_take]
      congr 1
      omega
    · next hfull =>
      rw [hl, List.take_of_length_le (by omega), List.take_of_length_le (by omega)]

theorem nodup_recency (ks : List κ) : (recency ks).Nodup := by
  rw [recency]
  suffices h : ∀ l : List κ, l.Nodup →
      (ks.foldl (fun l k => k :: l.filter (· ≠ k)) l).Nodup from h [] List.nodup_nil
  induction ks with
  | nil => exact fun l hl => hl
  | cons k ks ih =>
      refine fun l hl => ih _ (List.nodup_cons.mpr ⟨fun hmem => ?_, hl.filter _⟩)
      exact of_decide_eq_true (List.mem_filter.mp hmem).2 rfl

theorem recency_concat (ks : List κ) (k : κ) :
    recency (ks ++ [k]) = k :: (recency ks).filter (· ≠ k) := by
  rw [recency, List.foldl_append]
  rfl

end Keyed
