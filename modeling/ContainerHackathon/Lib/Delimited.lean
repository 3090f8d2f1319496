import Mathlib

/-!
# Delimited

Splitting a string at a separator character, as Python's `str.split(sep)`
does: the pieces are the maximal runs without the separator, empty runs
included, so the empty string splits into one empty piece.

The pieces of a join are the pieces of its parts
(`split_intercalate_flatMap`), so separator-free parts come back as they
were joined (`flatMap_split_of_notMem`), and they are the only ones that
do: one separator more is one piece more (`length_split`).
-/

namespace Delimited

/-- The pieces of `s` between the occurrences of `sep`. -/
def split (sep : Char) (s : String) : List String :=
  (s.toList.splitOn sep).map String.ofList

/-- The character as a separator string. -/
abbrev sepString (sep : Char) : String := String.ofList [sep]

/-- A separator-free string is its only piece. -/
theorem split_of_notMem {sep : Char} {s : String} (h : sep ∉ s.toList) : split sep s = [s] := by
  simp [split, List.splitOn_eq_singleton h]

theorem split_append_cons (sep : Char) (s t : String) :
    split sep (s ++ sepString sep ++ t) = split sep s ++ split sep t := by
  simp [split, List.splitOn_append_cons_self]

/-- The pieces of a join are the pieces of its parts. -/
theorem split_intercalate_flatMap (sep : Char) {l : List String} (hne : l ≠ []) :
    split sep ((sepString sep).intercalate l) = l.flatMap (split sep) := by
  induction l with
  | nil => exact absurd rfl hne
  | cons s l ih =>
      cases l with
      | nil => simp [String.intercalate_singleton]
      | cons t l =>
          rw [String.intercalate_cons_cons, split_append_cons, ih (by simp), List.flatMap_cons,
            List.flatMap_cons, List.flatMap_cons]

/-- **Round trip**: separator-free parts come back. -/
theorem flatMap_split_of_notMem {sep : Char} {l : List String} (h : ∀ s ∈ l, sep ∉ s.toList) :
    l.flatMap (split sep) = l := by
  induction l with
  | nil => rfl
  | cons s l ih =>
      rw [List.flatMap_cons, split_of_notMem (h s List.mem_cons_self),
        ih (fun t ht => h t (List.mem_cons_of_mem s ht))]
      rfl

/-- No piece contains the separator. -/
theorem notMem_of_mem_split {sep : Char} {s t : String} (h : t ∈ split sep s) :
    sep ∉ t.toList := by
  have hpieces : ∀ (cs : List Char), ∀ l ∈ cs.splitOn sep, sep ∉ l := by
    intro cs
    induction cs with
    | nil => simp
    | cons c cs ih =>
        rw [List.splitOn_cons_eq_if_modifyHead]
        split
        · simpa using ih
        · next hc =>
          cases hs : cs.splitOn sep with
          | nil => simp
          | cons l ls =>
              rw [hs] at ih
              have hne : c ≠ sep := by simpa using hc
              simpa [Ne.symm hne] using ih
  simp only [split, List.mem_map] at h
  obtain ⟨l, hl, rfl⟩ := h
  rw [String.toList_ofList]
  exact hpieces _ l hl

/-- The characters of a piece come from the string. -/
theorem mem_of_mem_split {sep c : Char} {s t : String} (h : t ∈ split sep s) (hc : c ∈ t.toList) :
    c ∈ s.toList := by
  have hpieces : ∀ (cs : List Char), ∀ l ∈ cs.splitOn sep, ∀ c ∈ l, c ∈ cs := by
    intro cs
    induction cs with
    | nil => simp
    | cons d cs ih =>
        rw [List.splitOn_cons_eq_if_modifyHead]
        split
        · rw [List.forall_mem_cons]
          exact ⟨by simp, fun l hl c hc => List.mem_cons_of_mem d (ih l hl c hc)⟩
        · cases hs : cs.splitOn sep with
          | nil => simp
          | cons l ls =>
              rw [hs, List.forall_mem_cons] at ih
              rw [List.modifyHead_cons, List.forall_mem_cons]
              refine ⟨fun c hc => ?_, fun m hm c hc => List.mem_cons_of_mem d (ih.2 m hm c hc)⟩
              obtain rfl | hc := List.mem_cons.mp hc
              · exact List.mem_cons_self
              · exact List.mem_cons_of_mem d (ih.1 c hc)
  simp only [split, List.mem_map] at h
  obtain ⟨l, hl, rfl⟩ := h
  rw [String.toList_ofList] at hc
  exact hpieces _ l hl c hc

/-- **Counting pieces**: one more than the separators. -/
theorem length_split (sep : Char) (s : String) :
    (split sep s).length = s.toList.count sep + 1 := by
  have hlen : ∀ cs : List Char, (cs.splitOn sep).length = cs.count sep + 1 := by
    intro cs
    induction cs with
    | nil => simp
    | cons c cs ih =>
        rw [List.splitOn_cons_eq_if_modifyHead, List.count_cons]
        split <;> simp [ih]
  simp [split, hlen]

/-- Every separator in a part makes one more piece of the join. -/
theorem length_flatMap_split (sep : Char) (l : List String) :
    (l.flatMap (split sep)).length = l.length + (l.map (fun s => s.toList.count sep)).sum := by
  induction l with
  | nil => rfl
  | cons s l ih =>
      simp only [List.flatMap_cons, List.length_append, ih, length_split, List.length_cons,
        List.map_cons, List.sum_cons]
      omega

/-- Only separator-free parts split into as many pieces as there are parts. -/
theorem length_flatMap_split_le_iff (sep : Char) (l : List String) :
    (l.flatMap (split sep)).length ≤ l.length ↔ ∀ s ∈ l, sep ∉ s.toList := by
  rw [length_flatMap_split]
  constructor
  · intro h s hs
    have hzero : (l.map (fun s => s.toList.count sep)).sum = 0 := by omega
    exact List.count_eq_zero.mp
      (List.sum_eq_zero_iff_forall_eq_nat.mp hzero _ (List.mem_map_of_mem hs))
  · intro h
    have hzero : (l.map (fun s => s.toList.count sep)).sum = 0 := by
      rw [List.sum_eq_zero_iff_forall_eq_nat]
      intro n hn
      obtain ⟨s, hs, rfl⟩ := List.mem_map.mp hn
      exact List.count_eq_zero.mpr (h s hs)
    omega

end Delimited
