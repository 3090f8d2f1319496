import Mathlib

/-!
# Windows

Windows of one length `k` in the positions below `n`, given by their starts.
A left-to-right scan takes the first admissible window it meets and goes on
behind it (`Greedy`).  It finds as many pairwise disjoint admissible windows
as there can be (`Greedy.isGreatest`): of any competing set it skips none
before the window it takes, and that window meets at most one of them.

Labels that each occupy one block (`InBlocks`) are equal throughout a window
as soon as they are equal at its ends.
-/

namespace Windows

variable {P : Nat → Prop} {k n i : Nat} {ss : List Nat}

/-! ## greedy selection -/

/-- The window starting at `s` lies below `n`, and may be chosen. -/
structure Admissible (P : Nat → Prop) (k n s : Nat) : Prop where
  fits : s + k ≤ n
  holds : P s

/-- No two windows of the set overlap. -/
def Apart (k : Nat) (T : Finset Nat) : Prop := ∀ s ∈ T, ∀ t ∈ T, s < t → s + k ≤ t

/-- The scan, from location `i`, chooses the windows `ss`. -/
inductive Greedy (P : Nat → Prop) (k n : Nat) : Nat → List Nat → Prop
  | done {i : Nat} : n < i + k → Greedy P k n i []
  | take {i : Nat} {ss : List Nat} : i + k ≤ n → P i → Greedy P k n (i + k) ss →
      Greedy P k n i (i :: ss)
  | skip {i : Nat} {ss : List Nat} : i + k ≤ n → ¬ P i → Greedy P k n (i + 1) ss →
      Greedy P k n i ss

theorem Greedy.admissible (h : Greedy P k n i ss) : ∀ s ∈ ss, i ≤ s ∧ Admissible P k n s := by
  induction h with
  | done => simp
  | take hfits hP _ ih =>
      refine List.forall_mem_cons.mpr ⟨⟨Nat.le_refl _, hfits, hP⟩, fun s hs => ?_⟩
      have hle := (ih s hs).1
      exact ⟨by omega, (ih s hs).2⟩
  | skip _ _ _ ih =>
      intro s hs
      have hle := (ih s hs).1
      exact ⟨by omega, (ih s hs).2⟩

/-- Every chosen window ends before the next one begins. -/
theorem Greedy.pairwise (h : Greedy P k n i ss) : ss.Pairwise (fun s t => s + k ≤ t) := by
  induction h with
  | done => exact .nil
  | take _ _ hrest ih => exact List.pairwise_cons.mpr ⟨fun t ht => (hrest.admissible t ht).1, ih⟩
  | skip _ _ _ ih => exact ih

theorem Greedy.unique {ts : List Nat} (hs : Greedy P k n i ss) (ht : Greedy P k n i ts) :
    ss = ts := by
  induction hs generalizing ts with
  | done hn =>
      cases ht with
      | done => rfl
      | take hfits => omega
      | skip hfits => omega
  | take hfits hP _ ih =>
      cases ht with
      | done hn => omega
      | take _ _ hrest => rw [ih hrest]
      | skip _ hnot => exact absurd hP hnot
  | skip hfits hnot _ ih =>
      cases ht with
      | done hn => omega
      | take _ hP => exact absurd hP hnot
      | skip _ _ hrest => exact ih hrest

/-- Of windows that are apart, at most one starts less than `k` behind `i`. -/
theorem card_filter_lt_le_one {T : Finset Nat} (hapart : Apart k T) (hle : ∀ s ∈ T, i ≤ s) :
    (T.filter (· < i + k)).card ≤ 1 := by
  rw [Finset.card_le_one]
  intro s hs t ht
  simp only [Finset.mem_filter] at hs ht
  have hsi := hle s hs.1
  have hti := hle t ht.1
  rcases Nat.lt_trichotomy s t with hlt | heq | hgt
  · have := hapart s hs.1 t ht.1 hlt
    omega
  · exact heq
  · have := hapart t ht.1 s hs.1 hgt
    omega

/-- **Exchange.**  No set of admissible windows from `i` on that are apart
is larger than the greedy choice. -/
theorem Greedy.card_le (h : Greedy P k n i ss) {T : Finset Nat} (hT : ∀ s ∈ T, Admissible P k n s)
    (hapart : Apart k T) (hle : ∀ s ∈ T, i ≤ s) : T.card ≤ ss.length := by
  induction h generalizing T with
  | @done i hn =>
      have hempty : T = ∅ := by
        refine Finset.eq_empty_of_forall_notMem fun s hs => ?_
        have := (hT s hs).fits
        have := hle s hs
        omega
      simp [hempty]
  | @take i ss _ _ _ ih =>
      -- the window at `i` is exchanged for the one competitor that it meets
      have hrest : (T.filter (¬ · < i + k)).card ≤ ss.length := by
        refine ih (fun s hs => hT s (Finset.mem_filter.mp hs).1) (fun s hs t ht => ?_) fun s hs => ?_
        · exact hapart s (Finset.mem_filter.mp hs).1 t (Finset.mem_filter.mp ht).1
        · exact Nat.not_lt.mp (Finset.mem_filter.mp hs).2
      have hfirst := card_filter_lt_le_one hapart hle
      have hsplit := Finset.card_filter_add_card_filter_not (s := T) (· < i + k)
      rw [List.length_cons]
      omega
  | @skip i ss _ hP _ ih =>
      refine ih hT hapart fun s hs => ?_
      have hne : s ≠ i := fun he => hP (he ▸ (hT s hs).holds)
      have := hle s hs
      omega

/-- **Optimality**: the greedy scan from the beginning finds a largest set
of admissible windows that are apart. -/
theorem Greedy.isGreatest (hk : 1 ≤ k) (h : Greedy P k n 0 ss) :
    IsGreatest {m | ∃ T : Finset Nat, (∀ s ∈ T, Admissible P k n s) ∧ Apart k T ∧ T.card = m}
      ss.length := by
  constructor
  · have hnodup : ss.Nodup := h.pairwise.imp fun hst => by omega
    refine ⟨ss.toFinset, fun s hs => (h.admissible s (List.mem_toFinset.mp hs)).2, ?_,
      List.toFinset_card_of_nodup hnodup⟩
    have hforward : ss.Pairwise (fun s t => s < t → s + k ≤ t) := by
      refine h.pairwise.imp ?_
      intro s t hst _
      exact hst
    have hbackward : ss.Pairwise (flip fun s t => s < t → s + k ≤ t) := by
      refine h.pairwise.imp ?_
      intro s t hst hlt
      omega
    have hall := hforward.forall_of_forall_of_flip (by simp) hbackward
    intro s hs t ht
    exact hall (List.mem_toFinset.mp hs) (List.mem_toFinset.mp ht)
  · intro m hm
    obtain ⟨T, hT, hapart, rfl⟩ := hm
    exact h.card_le hT hapart fun s _ => Nat.zero_le s

/-! ## labels in blocks -/

variable {σ : Type*} {labels : List σ}

/-- Every label occupies one contiguous block of the list. -/
def InBlocks (labels : List σ) : Prop :=
  ∀ i j l, i ≤ j → j ≤ l → l < labels.length → labels[i]? = labels[l]? → labels[j]? = labels[i]?

/-- The `k` labels from `s` on are one and the same. -/
def OneLabel (labels : List σ) (k s : Nat) : Prop := ∀ j < k, labels[s + j]? = labels[s]?

/-- In blocks, a window has one label as soon as its ends have. -/
theorem oneLabel_iff (h : InBlocks labels) (hk : 1 ≤ k) {s : Nat} (hs : s + k ≤ labels.length) :
    OneLabel labels k s ↔ labels[s]? = labels[s + k - 1]? := by
  constructor
  · intro hone
    have hlast := hone (k - 1) (by omega)
    rw [← hlast]
    congr 1
    omega
  · intro hends j hj
    exact h s (s + j) (s + k - 1) (by omega) (by omega) (by omega) hends

end Windows
