import ContainerHackathon.Lib.Transition

/-!
# Gather

Many senders, one collector.  Every sender `i` has a fixed script of
messages; it posts them one by one on its own first-in-first-out channel,
and the collector takes the front message of any non-empty channel.  The
collector looks at neither kind nor origin: it can only count.

`history` is the law of the pattern — what was taken from `i`, what is
under way from `i` and what `i` still has to post always concatenate to
`i`'s script.  Everything a counting collector may conclude follows:

* `got_length_add` — messages are conserved;
* `drained` — a count equal to the sum of the script lengths means that
  nothing is under way and nothing is still to be posted;
* `exists_more` — a smaller count means that something is.
-/

namespace Gather

open Transition

variable {ι μ : Type*} [DecidableEq ι]

/-- `pending`: still to be posted; `transit`: posted and not taken;
`got`: taken, in the order in which it was taken. -/
@[ext] structure State (ι μ : Type*) where
  pending : ι → List μ
  transit : ι → List μ
  got : List (ι × μ)

inductive Move (ι : Type*)
  | send (i : ι)
  | take (i : ι)

def step : Move ι → State ι μ → Option (State ι μ)
  | .send i, s =>
      match s.pending i with
      | [] => none
      | m :: ms => some { s with
          pending := Function.update s.pending i ms
          transit := Function.update s.transit i (s.transit i ++ [m]) }
  | .take i, s =>
      match s.transit i with
      | [] => none
      | m :: ms => some { s with
          transit := Function.update s.transit i ms
          got := s.got ++ [(i, m)] }

/-- The system in which sender `i` has `script i` to post. -/
def system (script : ι → List μ) : System (State ι μ) (Move ι) where
  init s := s = ⟨script, fun _ => [], []⟩
  step := step

theorem step_send {s : State ι μ} {i : ι} {m : μ} {ms : List μ} (h : s.pending i = m :: ms) :
    step (.send i) s = some ⟨Function.update s.pending i ms,
      Function.update s.transit i (s.transit i ++ [m]), s.got⟩ := by
  simp [step, h]

theorem step_take {s : State ι μ} {i : ι} {m : μ} {ms : List μ} (h : s.transit i = m :: ms) :
    step (.take i) s = some ⟨s.pending, Function.update s.transit i ms,
      s.got ++ [(i, m)]⟩ := by
  simp [step, h]

/-- What the collector took from sender `i`, in order. -/
def State.from (s : State ι μ) (i : ι) : List μ :=
  (s.got.filter (fun x => x.1 = i)).map Prod.snd

/-- Everything that ever was, is or will be on the way from `i`. -/
def State.history (s : State ι μ) (i : ι) : List μ := s.from i ++ s.transit i ++ s.pending i

/-! ## conservation, sender by sender -/

/-- A move shifts one message along its channel: no sender's history
changes. -/
theorem step_history {a : Move ι} {s s' : State ι μ} (h : step a s = some s') (i : ι) :
    s'.history i = s.history i := by
  cases a with
  | send j =>
      cases hp : s.pending j with
      | nil => simp [step, hp] at h
      | cons m ms =>
          rw [step_send hp, Option.some.injEq] at h
          subst h
          by_cases hij : i = j
          · subst hij; simp [State.history, State.from, hp]
          · simp [State.history, State.from, hij]
  | take j =>
      cases ht : s.transit j with
      | nil => simp [step, ht] at h
      | cons m ms =>
          rw [step_take ht, Option.some.injEq] at h
          subst h
          by_cases hij : i = j
          · subst hij; simp [State.history, State.from, ht, List.filter_append]
          · have hji : ¬ j = i := fun e => hij e.symm
            simp [State.history, State.from, hij, hji, List.filter_append]

variable {script : ι → List μ} {s : State ι μ}

/-- **History law**: taken, under way and still to be posted make up the
script. -/
theorem history (h : Reachable (system script) s) (i : ι) : s.history i = script i := by
  refine h.invariant (I := fun s => s.history i = script i) ?_ ?_
  · intro s hs
    subst hs
    simp [State.history, State.from]
  · intro s a s' _ hI hs
    rw [step_history hs i, hI]

/-- A sender's messages are taken in script order. -/
theorem isPrefix_from (h : Reachable (system script) s) (i : ι) : s.from i <+: script i := by
  rw [← history h i, State.history, List.append_assoc]
  exact List.prefix_append _ _

/-- Whatever was taken from `i` stands in `i`'s script. -/
theorem mem_script_of_got (h : Reachable (system script) s) {i : ι} {m : μ}
    (hm : (i, m) ∈ s.got) : m ∈ script i := by
  have hf : m ∈ s.from i := by
    simp only [State.from, List.mem_map, List.mem_filter, decide_eq_true_eq]
    exact ⟨(i, m), ⟨hm, rfl⟩, rfl⟩
  exact (isPrefix_from h i).subset hf

/-! ## conservation, counted over a finite set of senders -/

/-- Counting a list origin by origin counts the list. -/
theorem sum_length_filter (P : Finset ι) (l : List (ι × μ)) (hl : ∀ x ∈ l, x.1 ∈ P) :
    ∑ i ∈ P, (l.filter (fun x => x.1 = i)).length = l.length := by
  induction l with
  | nil => simp
  | cons x l ih =>
      have hx : x.1 ∈ P := hl x List.mem_cons_self
      have ih' := ih (fun y hy => hl y (List.mem_cons_of_mem x hy))
      have hcons : ∀ i, ((x :: l).filter (fun y => y.1 = i)).length =
          (if x.1 = i then 1 else 0) + (l.filter (fun y => y.1 = i)).length := by
        intro i
        by_cases hi : x.1 = i
        · simp [hi, Nat.add_comm]
        · simp [hi]
      simp only [hcons, Finset.sum_add_distrib, ih', List.length_cons,
        Finset.sum_ite_eq, if_pos hx]
      omega

variable {P : Finset ι}

/-- **Conservation**: the count of the collector, the messages under way
and the messages still to be posted add up to the scripts. -/
theorem got_length_add (h : Reachable (system script) s) (hP : ∀ i, i ∉ P → script i = []) :
    s.got.length + ∑ i ∈ P, ((s.transit i).length + (s.pending i).length) =
      ∑ i ∈ P, (script i).length := by
  have hgot : ∀ x ∈ s.got, x.1 ∈ P := by
    intro x hx
    by_contra hn
    have hm := mem_script_of_got h (i := x.1) (m := x.2) hx
    rw [hP _ hn] at hm
    exact List.not_mem_nil hm
  rw [← sum_length_filter P _ hgot, ← Finset.sum_add_distrib]
  refine Finset.sum_congr rfl fun i _ => ?_
  rw [← history h i]
  simp [State.history, State.from]

/-- A full count leaves nothing under way and nothing to post. -/
theorem drained (h : Reachable (system script) s) (hP : ∀ i, i ∉ P → script i = [])
    (hfull : s.got.length = ∑ i ∈ P, (script i).length) (i : ι) :
    s.transit i = [] ∧ s.pending i = [] := by
  by_cases hi : i ∈ P
  · have hc := got_length_add h hP
    have hzero : ∑ i ∈ P, ((s.transit i).length + (s.pending i).length) = 0 := by omega
    have hi0 := (Finset.sum_eq_zero_iff.mp hzero) i hi
    constructor <;> apply List.eq_nil_of_length_eq_zero <;> omega
  · have hh := history h i
    rw [hP i hi] at hh
    simp only [State.history, List.append_eq_nil_iff] at hh
    exact ⟨hh.1.2, hh.2⟩

/-- The collector can never count more than the scripts hold. -/
theorem got_length_le (h : Reachable (system script) s) (hP : ∀ i, i ∉ P → script i = []) :
    s.got.length ≤ ∑ i ∈ P, (script i).length := by
  have := got_length_add h hP
  omega

/-- While the count is short, some sender has a message under way or
still to be posted. -/
theorem exists_more (h : Reachable (system script) s) (hP : ∀ i, i ∉ P → script i = [])
    (hshort : s.got.length < ∑ i ∈ P, (script i).length) :
    ∃ i ∈ P, s.transit i ≠ [] ∨ s.pending i ≠ [] := by
  by_contra hn
  push Not at hn
  have hc := got_length_add h hP
  have hzero : ∑ i ∈ P, ((s.transit i).length + (s.pending i).length) = 0 :=
    Finset.sum_eq_zero fun i hi => by simp [hn i hi]
  omega

end Gather
