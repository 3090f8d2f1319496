import ContainerHackathon.Lib.Python
import ContainerHackathon.Lib.Windows

/-!
# Training.SequenceStarts

The two ways in which `SequenceGenerator` chooses where its sequences start,
before shuffling and truncation.

The loop of the mode `unique` is the greedy selection of disjoint windows
with equal end labels, so it is as long as such a selection can be
(`uniqueLoop_correct`).  The mode `all` takes the indices of one range,
without a look at the labels and without the last window; so it gives the
windows of one source in a few cases only (`allStarts_allSequences_iff`).
-/

namespace ContainerHackathon.Training

open Windows

/-- What the code raises. -/
inductive PyError
  | indexError
  | zeroDivisionError
  | valueError
  deriving DecidableEq, Repr

variable {σ : Type*} [DecidableEq σ]

/-! ## the two modes -/

/-- `range(self.X.shape[0] - self.nt)`, which is empty for a negative
bound. -/
def allStarts (numImages nt : Nat) : List Nat := List.range (numImages - nt)

/-- The variables of the `while` loop. -/
structure UniqueLoop where
  currLocation : Nat
  possibleStarts : List Nat
  deriving DecidableEq, Repr

/-- The `while` loop, for at most `fuel` tests of its condition; `none` if
it is still running. -/
def uniqueLoop (sources : List σ) (numImages nt : Nat) :
    (fuel : Nat) → UniqueLoop → Option (Except PyError (List Nat))
  | 0, _ => none
  | fuel + 1, ⟨currLocation, possibleStarts⟩ =>
      if (currLocation : Int) < numImages - nt + 1 then
        match Python.item? sources currLocation, Python.item? sources (currLocation + nt - 1) with
        | some first, some last =>
            if first = last then
              uniqueLoop sources numImages nt fuel
                ⟨currLocation + nt, possibleStarts ++ [currLocation]⟩
            else uniqueLoop sources numImages nt fuel ⟨currLocation + 1, possibleStarts⟩
        | _, _ => some (.error .indexError)
      else some (.ok possibleStarts)

variable {sources : List σ} {nt : Nat}

/-! ## the mode `unique` -/

/-- A loop that has ended does not need more fuel. -/
theorem uniqueLoop_fuel {numImages fuel more : Nat} {loop : UniqueLoop}
    {r : Except PyError (List Nat)} (h : uniqueLoop sources numImages nt fuel loop = some r) :
    uniqueLoop sources numImages nt (fuel + more) loop = some r := by
  induction fuel generalizing loop with
  | zero => simp [uniqueLoop] at h
  | succ fuel ih =>
      rw [show fuel + 1 + more = fuel + more + 1 by omega]
      rw [uniqueLoop] at h ⊢
      split at h
      · next hcond =>
        rw [if_pos hcond]
        split at h
        · split at h
          · next heq => rw [if_pos heq]; exact ih h
          · next heq => rw [if_neg heq]; exact ih h
        · exact h
      · next hcond => rw [if_neg hcond]; exact h

/-- The labels at both ends of the sequence starting at `s` are equal. -/
def SameEnds (sources : List σ) (nt s : Nat) : Prop := sources[s]? = sources[s + nt - 1]?

/-- One round of the loop, where there is room for another sequence: both
labels are there. -/
theorem uniqueLoop_succ (hnt : 1 ≤ nt) (fuel : Nat) {curr : Nat} (starts : List Nat)
    (hroom : curr + nt ≤ sources.length) :
    (SameEnds sources nt curr ∧
      uniqueLoop sources sources.length nt (fuel + 1) ⟨curr, starts⟩ =
        uniqueLoop sources sources.length nt fuel ⟨curr + nt, starts ++ [curr]⟩) ∨
    (¬ SameEnds sources nt curr ∧
      uniqueLoop sources sources.length nt (fuel + 1) ⟨curr, starts⟩ =
        uniqueLoop sources sources.length nt fuel ⟨curr + 1, starts⟩) := by
  have hlast : (curr : Int) + nt - 1 = (curr + nt - 1 : Nat) := by omega
  have hfirst : sources[curr]? = some sources[curr] := List.getElem?_eq_getElem (by omega)
  have hend : sources[curr + nt - 1]? = some sources[curr + nt - 1] :=
    List.getElem?_eq_getElem (by omega)
  have hcond : (curr : Int) < sources.length - nt + 1 := by omega
  by_cases heq : sources[curr] = sources[curr + nt - 1]
  · refine .inl ⟨by rw [SameEnds, hfirst, hend, heq], ?_⟩
    rw [uniqueLoop, if_pos hcond, hlast, Python.item?_natCast, Python.item?_natCast, hfirst, hend]
    exact if_pos heq
  · refine .inr ⟨by rw [SameEnds, hfirst, hend]; simpa using heq, ?_⟩
    rw [uniqueLoop, if_pos hcond, hlast, Python.item?_natCast, Python.item?_natCast, hfirst, hend]
    exact if_neg heq

/-- **Loop invariant.**  From any location inside the data, with fuel for
the rest of it, the loop appends the greedy selection from there. -/
theorem uniqueLoop_greedy (sources : List σ) (hnt : 1 ≤ nt) {fuel : Nat} (curr : Nat)
    (hcurr : curr ≤ sources.length) (hfuel : sources.length < fuel + curr) : ∃ ss,
      Greedy (SameEnds sources nt) nt sources.length curr ss ∧ ∀ starts,
        uniqueLoop sources sources.length nt fuel ⟨curr, starts⟩ = some (.ok (starts ++ ss)) := by
  induction fuel generalizing curr with
  | zero => omega
  | succ fuel ih =>
      by_cases hroom : curr + nt ≤ sources.length
      · by_cases hends : SameEnds sources nt curr
        · obtain ⟨ss, hss, hloop⟩ := ih (curr + nt) hroom (by omega)
          refine ⟨curr :: ss, .take hroom hends hss, fun starts => ?_⟩
          obtain ⟨-, hround⟩ | ⟨hno, -⟩ := uniqueLoop_succ hnt fuel starts hroom
          · rw [hround, hloop, List.append_assoc, List.singleton_append]
          · exact absurd hends hno
        · obtain ⟨ss, hss, hloop⟩ := ih (curr + 1) (by omega) (by omega)
          refine ⟨ss, .skip hroom hends hss, fun starts => ?_⟩
          obtain ⟨hyes, -⟩ | ⟨-, hround⟩ := uniqueLoop_succ hnt fuel starts hroom
          · exact absurd hyes hends
          · rw [hround, hloop]
      · refine ⟨[], .done (by omega), fun starts => ?_⟩
        rw [uniqueLoop, if_neg (by omega), List.append_nil]

/-- What the mode `unique` promises of its starts. -/
structure UniqueSelection (sources : List σ) (nt : Nat) (starts : List Nat) : Prop where
  increasing : starts.Pairwise (· < ·)
  inside : ∀ s ∈ starts, s + nt ≤ sources.length
  disjoint : starts.Pairwise (fun s t => s + nt ≤ t)
  sameEnds : ∀ s ∈ starts, SameEnds sources nt s
  maximum : IsGreatest {m | ∃ T : Finset Nat,
    (∀ s ∈ T, Admissible (SameEnds sources nt) nt sources.length s) ∧ Apart nt T ∧ T.card = m}
    starts.length
  oneLabel : InBlocks sources → ∀ s ∈ starts, OneLabel sources nt s

omit [DecidableEq σ] in
theorem uniqueSelection_of_greedy (hnt : 1 ≤ nt) {ss : List Nat}
    (h : Greedy (SameEnds sources nt) nt sources.length 0 ss) : UniqueSelection sources nt ss where
  increasing := h.pairwise.imp fun hst => by omega
  inside s hs := (h.admissible s hs).2.fits
  disjoint := h.pairwise
  sameEnds s hs := (h.admissible s hs).2.holds
  maximum := h.isGreatest hnt
  oneLabel hblocks s hs :=
    have hadm := (h.admissible s hs).2
    (oneLabel_iff hblocks hnt hadm.fits).mpr hadm.holds

/-- The loop ends with the choice of the greedy scan as soon as it may test
its condition more often than there are images. -/
theorem uniqueLoop_ends (sources : List σ) (hnt : 1 ≤ nt) : ∃ starts,
    (∀ fuel, sources.length < fuel →
      uniqueLoop sources sources.length nt fuel ⟨0, []⟩ = some (.ok starts)) ∧
    Greedy (SameEnds sources nt) nt sources.length 0 starts := by
  obtain ⟨ss, hss, -⟩ := uniqueLoop_greedy sources hnt 0 (Nat.zero_le _)
    (Nat.lt_succ_self sources.length)
  refine ⟨ss, fun fuel hfuel => ?_, hss⟩
  obtain ⟨ts, hts, hloop⟩ := uniqueLoop_greedy sources hnt 0 (Nat.zero_le _) hfuel
  rw [hloop, List.nil_append, hts.unique hss]

/-- **The mode `unique`** ends, raises nothing and chooses the most
sequences: whatever the labels, more tests of the loop condition than there
are images are enough. -/
theorem uniqueLoop_correct (sources : List σ) (hnt : 1 ≤ nt) : ∃ starts,
    (∀ fuel, sources.length < fuel →
      uniqueLoop sources sources.length nt fuel ⟨0, []⟩ = some (.ok starts)) ∧
    UniqueSelection sources nt starts := by
  obtain ⟨starts, hloop, hgreedy⟩ := uniqueLoop_ends sources hnt
  exact ⟨starts, hloop, uniqueSelection_of_greedy hnt hgreedy⟩

/-- Two sources of two images each. -/
theorem uniqueLoop_correct_two : ∃ starts,
    (∀ fuel, 5 < fuel → uniqueLoop ["a", "a", "b", "b", "b"] 5 2 fuel ⟨0, []⟩ = some (.ok starts)) ∧
    UniqueSelection ["a", "a", "b", "b", "b"] 2 starts :=
  uniqueLoop_correct ["a", "a", "b", "b", "b"] (by decide)

/-! ## the mode `all` -/

/-- The increasing list of all starts of sequences of one source. -/
structure AllSequences (sources : List σ) (nt : Nat) (starts : List Nat) : Prop where
  increasing : starts.Pairwise (· < ·)
  mem_iff : ∀ i, i ∈ starts ↔ i + nt ≤ sources.length ∧ OneLabel sources nt i

omit [DecidableEq σ] in
theorem allSequences_allStarts_iff : AllSequences sources nt (allStarts sources.length nt) ↔
    ∀ i, i < sources.length - nt ↔ i + nt ≤ sources.length ∧ OneLabel sources nt i := by
  constructor
  · intro h i
    rw [← h.mem_iff, allStarts, List.mem_range]
  · intro h
    refine ⟨List.pairwise_lt_range, fun i => ?_⟩
    rw [allStarts, List.mem_range, h]

/-- The mode `all` may be right about the last sequence only if that one
straddles two sources; then either there is no other sequence, or the other
sequences make one source of all images but the last. -/
def LastStraddles (sources : List σ) (nt : Nat) : Prop :=
  sources[sources.length - nt]? ≠ sources[sources.length - 1]? ∧
    (sources.length = nt ∨ ∀ i, i + 1 < sources.length → sources[i]? = sources[0]?)

omit [DecidableEq σ] in
/-- Sequences of one source that overlap join to one source. -/
theorem label_eq_of_overlap (hnt : 2 ≤ nt) (hlen : nt < sources.length)
    (hone : ∀ i, i < sources.length - nt → OneLabel sources nt i) (i : Nat)
    (hi : i + 1 < sources.length) : sources[i]? = sources[0]? := by
  induction i with
  | zero => rfl
  | succ i ih =>
      rw [← ih (by omega)]
      by_cases hfront : i < sources.length - nt
      · exact hone i hfront 1 (by omega)
      · -- the last sequence but one ends at the last image but one
        have hstart : sources.length - nt - 1 < sources.length - nt := by omega
        have hj := hone _ hstart (i - (sources.length - nt - 1)) (by omega)
        have hj' := hone _ hstart (i + 1 - (sources.length - nt - 1)) (by omega)
        rw [Nat.add_sub_cancel' (by omega)] at hj hj'
        rw [hj, hj']

omit [DecidableEq σ] in
/-- The range is right exactly if there is no sequence at all, or the last
sequence straddles two sources and is the only one that does. -/
theorem allStarts_allSequences_iff (hblocks : InBlocks sources) (hnt : 1 ≤ nt) :
    AllSequences sources nt (allStarts sources.length nt) ↔
      sources.length < nt ∨ LastStraddles sources nt := by
  have hlast : nt ≤ sources.length → (OneLabel sources nt (sources.length - nt) ↔
      sources[sources.length - nt]? = sources[sources.length - 1]?) := fun hle => by
    rw [oneLabel_iff hblocks hnt (by omega)]
    have hend : sources.length - nt + nt - 1 = sources.length - 1 := by omega
    rw [hend]
  rw [allSequences_allStarts_iff]
  constructor
  · intro h
    by_cases hle : nt ≤ sources.length
    · have hne : sources[sources.length - nt]? ≠ sources[sources.length - 1]? := fun heq => by
        have := (h (sources.length - nt)).mpr ⟨by omega, (hlast hle).mpr heq⟩
        omega
      have hnt2 : 2 ≤ nt := by
        by_contra hone
        obtain rfl : nt = 1 := by omega
        exact hne rfl
      refine .inr ⟨hne, ?_⟩
      by_cases heq : sources.length = nt
      · exact .inl heq
      · exact .inr (label_eq_of_overlap hnt2 (by omega) fun i hi => ((h i).mp hi).2)
    · exact .inl (by omega)
  · intro h i
    cases h with
    | inl hlt => omega
    | inr hstraddles =>
        obtain ⟨hne, hfront⟩ := hstraddles
        constructor
        · intro hi
          refine ⟨by omega, fun j hj => ?_⟩
          cases hfront with
          | inl heq => omega
          | inr hfront => rw [hfront (i + j) (by omega), hfront i (by omega)]
        · intro hi
          obtain ⟨hfits, hone⟩ := hi
          have hnot : i ≠ sources.length - nt := fun he =>
            hne ((hlast (by omega)).mp (he ▸ hone))
          omega

end ContainerHackathon.Training
