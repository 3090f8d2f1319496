import Mathlib

/-!
# Journal

Append-only journals: lists that grow at their end only and in which every
entry is judged against the entries before it.

* `each_concat` — appending an entry only adds the obligation for that entry;
* `foldl_overwrite` — replaying a journal whose entries overwrite each other
  yields its last entry;
* `Each.le_last` — what never decreases from one entry to the next is
  largest in the last one.
-/

namespace Journal

variable {α β : Type*} {P : List α → α → Prop} {rs : List α} {r : α}

/-- Every entry stands in relation `P` to the list of entries before it. -/
def Each (P : List α → α → Prop) (rs : List α) : Prop :=
  ∀ before r after, rs = before ++ r :: after → P before r

@[simp] theorem each_nil : Each P [] := by
  intro before r after h
  simp at h

@[simp] theorem each_concat : Each P (rs ++ [r]) ↔ Each P rs ∧ P rs r := by
  constructor
  · intro h
    refine ⟨fun before q after hq => ?_, h rs r [] rfl⟩
    exact h before q (after ++ [r]) (by simp [hq])
  · intro h before q after hq
    cases after using List.reverseRecOn with
    | nil =>
        obtain ⟨hbefore, hlast⟩ : rs = before ∧ r = q := by simpa using hq
        rw [← hbefore, ← hlast]
        exact h.2
    | append_singleton after last _ =>
        have hinit : rs ++ [r] = (before ++ q :: after) ++ [last] := by simpa using hq
        exact h.1 before q after (List.append_inj_left' hinit rfl)

/-- The last entry as replayed: every entry overwrites what was read
before it. -/
theorem foldl_overwrite (rs : List α) (a : α) :
    rs.foldl (fun _ r => r) a = rs.getLast?.getD a := by
  induction rs generalizing a with
  | nil => rfl
  | cons r rs ih => rw [List.foldl_cons, ih, List.getLast?_cons, Option.getD_some]

/-- What no entry lets decrease is largest in the last one. -/
theorem Each.le_last [Preorder β] {f : α → β} (hmono : ∀ rs q r, P (rs ++ [q]) r → f q ≤ f r)
    (h : Each P rs) : ∀ q ∈ rs, ∀ last ∈ rs.getLast?, f q ≤ f last := by
  induction rs using List.reverseRecOn with
  | nil => simp
  | append_singleton rs r ih =>
      intro q hq last hlast
      obtain ⟨hrs, hr⟩ := each_concat.mp h
      obtain rfl : r = last := by simpa using hlast
      cases List.mem_append.mp hq with
      | inl hq =>
          cases rs using List.reverseRecOn with
          | nil => simp at hq
          | append_singleton rs p _ => exact (ih hrs q hq p (by simp)).trans (hmono rs p r hr)
      | inr hq => exact (List.mem_singleton.mp hq ▸ le_rfl)

end Journal
