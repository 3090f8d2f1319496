import ContainerHackathon.PyStager.Protocol.Completion

/-!
# PyStager.Protocol.Agreement

Every rank evaluates `os.path.exists(source_dir)` for itself and leaves
without a word if the answer is no; an exception ends a rank in the same
way.  `noRankLeft_iff` says which answers and exceptions are harmless; for
items without `;` a job must not raise, and the workers must find the
source exactly if the master does and survives its scan.
-/

namespace ContainerHackathon.PyStager

open Transition

variable {c : Config} {s : State}

/-- The workers that find the source are all of them if the master gets to
its sends, and none otherwise. -/
def Config.Agree (c : Config) : Prop := ∀ w, 1 ≤ w → w < c.p → (c.sees w = true ↔ c.Starts)

theorem nobodyLeft_of_agree (hp : 2 ≤ c.p)
    (htotal : c.scan.total c.params.loadLevel = c.items.length) (hagree : c.Agree)
    (hquiet : c.Starts → c.Quiet) : c.NobodyLeft := by
  rw [Config.NobodyLeft]
  split
  · next hstart =>
    exact need_le_supply hp hstart.2.1 htotal (fun w h1 h2 => (hagree w h1 h2).mpr hstart)
      (hquiet hstart)
  · next hstart =>
    intro w h1 h2
    simpa using mt (hagree w h1 h2).mp hstart

theorem agree_of_nobodyLeft (hp : 2 ≤ c.p)
    (htotal : c.scan.total c.params.loadLevel = c.items.length)
    (hfree : ∀ item ∈ c.items, ';' ∉ item.toList) (hleft : c.NobodyLeft) :
    c.Agree ∧ (c.Starts → c.Quiet) := by
  rw [Config.NobodyLeft] at hleft
  split at hleft
  · next hstart =>
    have hfit : ∀ w, 1 ≤ w → w < c.p → c.sees w = true ∧ c.QuietAt w := by
      intro w h1 h2
      by_contra hnot
      have hlt := supply_lt_need hp hstart.2.1 htotal hfree ⟨h1, h2⟩ (by
        rw [← Bool.not_eq_true]
        exact not_and_or.mp hnot)
      omega
    exact ⟨fun w h1 h2 => iff_of_true (hfit w h1 h2).1 hstart,
      fun _ w h1 h2 => (hfit w h1 h2).2⟩
  · next hstart =>
    exact ⟨fun w h1 h2 => iff_of_false (by simp [hleft w h1 h2]) hstart, fun h => absurd h hstart⟩

/-- A run that stops without every rank having terminated is one in which
some rank was left waiting. -/
theorem leftWaiting_of_deadlocked (h : Reachable (system c) s) (hd : Deadlocked c s) :
    LeftWaiting c s :=
  (leftWaiting_of_halted h hd.1).resolve_left hd.2

/-- **No rank is left waiting**, and no run deadlocks, exactly under
`NobodyLeft`: the workers that find the source supply a master that gets to
its sends, and there are none if it does not.  If the scan was right and no
item contains a `;` this means that the workers agree with the master, and
that no job raises. -/
theorem noRankLeft_iff (hp : 2 ≤ c.p) :
    ((∀ s, Reachable (system c) s → ¬ LeftWaiting c s ∧ ¬ Deadlocked c s) ↔ c.NobodyLeft) ∧
    (c.scan.total c.params.loadLevel = c.items.length →
      (∀ item ∈ c.items, ';' ∉ item.toList) →
      (c.NobodyLeft ↔ c.Agree ∧ (c.Starts → c.Quiet))) := by
  refine ⟨?_, fun htotal hfree => ?_⟩
  · rw [← never_leftWaiting_iff hp]
    constructor
    · exact fun hall s h => (hall s h).1
    · exact fun hnever s h => ⟨hnever s h, fun hd => hnever s h (leftWaiting_of_deadlocked h hd)⟩
  · exact ⟨agree_of_nobodyLeft hp htotal hfree, fun h => nobodyLeft_of_agree hp htotal h.1 h.2⟩

/-- The source is visible to rank 1 but not to the master. -/
def splitViewConfig : Config := { plainConfig 2 ["a"] with sees := fun r => decide (r = 1) }

/-- The master exits and rank 1 waits for it. -/
theorem splitViewConfig_leftWaiting :
    ∃ s, Reachable (system splitViewConfig) s ∧ LeftWaiting splitViewConfig s := by
  refine ⟨_, reachable_of_run [.master 0, .worker 1] rfl rfl, .inr ?_⟩
  exact ⟨1, by decide, by decide, rfl, rfl, trivial⟩

theorem noRankLeft_iff_agree : (plainConfig 3 ["a", "b"]).Agree ∧
    ∀ s, Reachable (system (plainConfig 3 ["a", "b"])) s →
      ¬ LeftWaiting (plainConfig 3 ["a", "b"]) s ∧ ¬ Deadlocked (plainConfig 3 ["a", "b"]) s :=
  have hstart : (plainConfig 3 ["a", "b"]).Starts := ⟨rfl, rfl, le_rfl⟩
  have hagree : (plainConfig 3 ["a", "b"]).Agree := fun _ _ _ => iff_of_true rfl hstart
  have h := noRankLeft_iff (c := plainConfig 3 ["a", "b"]) (by decide)
  ⟨hagree, h.1.mpr ((h.2 rfl (by decide)).mpr ⟨hagree, fun _ => plainConfig_quiet _ _⟩)⟩

end ContainerHackathon.PyStager
