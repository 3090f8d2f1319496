import Mathlib

/-!
# Interleaving

What several parties do one by one, written down in one order.  The order
is a list of entries with their party; what one party did is the part of
the list with its name.

* `Interleaves.concat` — one more entry;
* `Interleaves.sublist` — every party's own order is kept;
* `Interleaves.perm` — the list has the entries of all parties, and no
  others.
-/

namespace Interleaving

variable {ι α : Type*} [DecidableEq ι] {order : List (ι × α)} {seqs : ι → List α} {i : ι}

/-- The entries of one party, in their order. -/
def entriesOf (order : List (ι × α)) (i : ι) : List α := (order.filter fun x => x.1 = i).map Prod.snd

@[simp] theorem entriesOf_nil (i : ι) : entriesOf ([] : List (ι × α)) i = [] := rfl

@[simp] theorem entriesOf_cons (x : ι × α) (order : List (ι × α)) (i : ι) :
    entriesOf (x :: order) i = if x.1 = i then x.2 :: entriesOf order i else entriesOf order i := by
  by_cases h : x.1 = i <;> simp [entriesOf, h]

@[simp] theorem entriesOf_append (order more : List (ι × α)) (i : ι) :
    entriesOf (order ++ more) i = entriesOf order i ++ entriesOf more i := by
  simp [entriesOf]

/-- `order` has for every party what `seqs` says. -/
def Interleaves (order : List (ι × α)) (seqs : ι → List α) : Prop := ∀ i, entriesOf order i = seqs i

theorem interleaves_nil : Interleaves ([] : List (ι × α)) fun _ => [] := fun _ => rfl

/-- **One more entry**. -/
theorem Interleaves.concat (h : Interleaves order seqs) (i : ι) (a : α) :
    Interleaves (order ++ [(i, a)]) (Function.update seqs i (seqs i ++ [a])) := by
  intro j
  rw [entriesOf_append, h j]
  by_cases hj : j = i
  · subst hj
    simp
  · simp [hj, Ne.symm hj]

/-- Every party's order is kept. -/
theorem Interleaves.sublist (h : Interleaves order seqs) (i : ι) :
    (seqs i).Sublist (order.map Prod.snd) := by
  rw [← h i]
  exact List.filter_sublist.map Prod.snd

/-- A new entry of one party stands before or behind the others'. -/
theorem flatMap_entriesOf_cons_perm {parties : List ι} (hnodup : parties.Nodup)
    (order : List (ι × α)) (x : ι × α) (hx : x.1 ∈ parties) :
    (parties.flatMap (entriesOf (x :: order))).Perm (x.2 :: parties.flatMap (entriesOf order)) := by
  induction parties with
  | nil => cases hx
  | cons i parties ih =>
      obtain ⟨hi, hnodup⟩ := List.nodup_cons.mp hnodup
      by_cases h : x.1 = i
      · have hothers : parties.flatMap (entriesOf (x :: order)) = parties.flatMap (entriesOf order) :=
          List.flatMap_congr fun j hj => by
            have hne : x.1 ≠ j := fun he => hi (h ▸ he ▸ hj)
            simp [hne]
        simp [h, hothers]
      · have hrest := ih hnodup ((List.mem_cons.mp hx).resolve_left h)
        simp only [List.flatMap_cons, entriesOf_cons, if_neg h]
        exact (hrest.append_left _).trans List.perm_middle

/-- **The entries of all parties** are the entries of the order. -/
theorem Interleaves.perm (h : Interleaves order seqs) (parties : List ι) (hnodup : parties.Nodup)
    (hout : ∀ i, i ∉ parties → seqs i = []) :
    (order.map Prod.snd).Perm (parties.flatMap seqs) := by
  have hin : ∀ x ∈ order, x.1 ∈ parties := by
    intro x hx
    by_contra hnot
    have hmem : x.2 ∈ entriesOf order x.1 :=
      List.mem_map_of_mem (List.mem_filter.mpr ⟨hx, decide_eq_true rfl⟩)
    rw [h, hout _ hnot] at hmem
    cases hmem
  rw [← funext h]
  clear h hout
  induction order with
  | nil => simp
  | cons x order ih =>
      rw [List.forall_mem_cons] at hin
      exact ((ih hin.2).cons x.2).trans (flatMap_entriesOf_cons_perm hnodup order x hin.1).symm

end Interleaving
