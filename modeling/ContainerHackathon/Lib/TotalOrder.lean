import ContainerHackathon.Lib.Transition

/-!
# TotalOrder

Many parties that ask for the same things, each when it likes.  What all of
them wait for can be answered, several things at once.  The answers form one
order, and every party performs them in this order at its own pace.

This is what a coordination is for, whatever messages it takes.  Of every
thing, a party has asked for as many as were answered or for one more
(`asked_bounds`).
-/

namespace TotalOrder

open Transition

variable {ι κ β : Type*}

/-- `done`: how much of the order each party has performed. -/
@[ext] structure State (ι κ β : Type*) where
  asked : ι → List κ
  order : List β
  done : ι → Nat

inductive Move (ι κ β : Type*)
  | ask (i : ι) (k : κ)
  | answer (batch : List β)
  | perform (i : ι)

variable [Fintype ι] [DecidableEq ι] [DecidableEq κ] (names : β → List κ)

/-- How often a thing was answered. -/
def State.answered (s : State ι κ β) (k : κ) : Nat := (s.order.flatMap names).count k

/-- Asked for, and not answered. -/
def State.Waits (s : State ι κ β) (i : ι) (k : κ) : Prop :=
  s.answered names k < (s.asked i).count k

instance (s : State ι κ β) (i : ι) (k : κ) : Decidable (s.Waits names i k) := Nat.decLt _ _

/-- Answered, and not performed. -/
def State.pending (s : State ι κ β) (i : ι) : List κ := (s.order.drop (s.done i)).flatMap names

/-- A party asks again for a thing only when it has performed it. -/
def step : Move ι κ β → State ι κ β → Option (State ι κ β)
  | .ask i k, s =>
      if s.Waits names i k ∨ k ∈ s.pending names i then none
      else some { s with asked := Function.update s.asked i (s.asked i ++ [k]) }
  | .answer batch, s =>
      if (batch.flatMap names).Nodup ∧ ∀ k ∈ batch.flatMap names, ∀ i, s.Waits names i k then
        some { s with order := s.order ++ batch }
      else none
  | .perform i, s =>
      if s.done i < s.order.length then
        some { s with done := Function.update s.done i (s.done i + 1) }
      else none

def system : System (State ι κ β) (Move ι κ β) where
  init s := s = ⟨fun _ => [], [], fun _ => 0⟩
  step := step names

variable {names} {s s' : State ι κ β}

/-! ## what the moves do -/

theorem step_ask {i : ι} {k : κ} (hwaits : ¬ s.Waits names i k) (hpending : k ∉ s.pending names i) :
    step names (.ask i k) s =
      some { s with asked := Function.update s.asked i (s.asked i ++ [k]) } :=
  if_neg (not_or.mpr ⟨hwaits, hpending⟩)

theorem step_answer {batch : List β} (hnodup : (batch.flatMap names).Nodup)
    (hwaits : ∀ k ∈ batch.flatMap names, ∀ i, s.Waits names i k) :
    step names (.answer batch) s = some { s with order := s.order ++ batch } :=
  if_pos ⟨hnodup, hwaits⟩

theorem step_perform {i : ι} (h : s.done i < s.order.length) :
    step names (.perform i) s = some { s with done := Function.update s.done i (s.done i + 1) } :=
  if_pos h

/-- All that a move can do. -/
theorem step_cases {a : Move ι κ β} (h : step names a s = some s') :
    (∃ i k, ¬ s.Waits names i k ∧
      s' = { s with asked := Function.update s.asked i (s.asked i ++ [k]) }) ∨
    (∃ batch, (batch.flatMap names).Nodup ∧
      (∀ k ∈ batch.flatMap names, ∀ i, s.Waits names i k) ∧
      s' = { s with order := s.order ++ batch }) ∨
    ∃ i, s.done i < s.order.length ∧
      s' = { s with done := Function.update s.done i (s.done i + 1) } := by
  cases a with
  | ask i k =>
      rw [step] at h
      split at h
      · cases h
      · next hfree => exact .inl ⟨i, k, fun hw => hfree (.inl hw), (Option.some.inj h).symm⟩
  | answer batch =>
      rw [step] at h
      split at h
      · next hbatch => exact .inr (.inl ⟨batch, hbatch.1, hbatch.2, (Option.some.inj h).symm⟩)
      · cases h
  | perform i =>
      rw [step] at h
      split at h
      · next hlt => exact .inr (.inr ⟨i, hlt, (Option.some.inj h).symm⟩)
      · cases h

/-- **Every party asks at most once ahead**: as often as the thing was answered,
or once more. -/
theorem asked_bounds (h : Reachable (system names) s) (i : ι) (k : κ) :
    s.answered names k ≤ (s.asked i).count k ∧ (s.asked i).count k ≤ s.answered names k + 1 := by
  refine h.invariant (I := fun s => s.answered names k ≤ (s.asked i).count k ∧
    (s.asked i).count k ≤ s.answered names k + 1) (fun s hs => ?_) fun s a s' _ ih hstep => ?_
  · obtain rfl : s = ⟨fun _ => [], [], fun _ => 0⟩ := hs
    exact ⟨Nat.le_refl _, Nat.zero_le _⟩
  · obtain ⟨j, k', hfree, rfl⟩ | ⟨batch, hnodup, hwaits, rfl⟩ | ⟨j, -, rfl⟩ := step_cases hstep
    · by_cases hij : i = j
      · subst hij
        have hcount : (s.asked i ++ [k']).count k = _ := List.count_append
        rw [List.count_singleton] at hcount
        simp only [State.Waits, State.answered, Function.update_self] at hfree ih hcount ⊢
        split at hcount
        · next heq =>
          obtain rfl : k' = k := by simpa using heq
          omega
        · omega
      · simpa only [State.answered, Function.update_of_ne hij] using ih
    · have hone := List.nodup_iff_count_le_one.mp hnodup k
      have hbatch := hwaits k
      rw [← List.count_pos_iff] at hbatch
      simp only [State.Waits, State.answered, List.flatMap_append, List.count_append] at hbatch ih ⊢
      by_cases hk : 0 < (batch.flatMap names).count k
      · have := hbatch hk i
        omega
      · omega
    · exact ih

end TotalOrder
