import ContainerHackathon.Lib.Transition
import ContainerHackathon.EcEarth.RunFiles

/-!
# EcEarth.Archive

The loop that archives the month files of a leg.  A file goes behind the
file of the same name in the directory of the leg before, if there is one,
and into the directory of its own leg otherwise; `runCmds_globIcm` says what
one pass of the loop does.

Over any number of legs nothing is lost or reordered.  But a leg whose
file went behind that of the leg before leaves none in its own directory, so
the next leg does not find it: the legs that leave a file one after the other
share it in pairs, and records stay together exactly if they never go on from
one pair to the next (`archiving_iff`).  Where every file has records, that
is: no three legs in a row write to it (`paired_iff_noThreeInARow`).
-/

namespace ContainerHackathon.EcEarth

open Transition Journal

variable {ρ : Type*} {k n : Nat} {stamp : Stamp} {d : RunFiles ρ} {f : MonthFile}
  {fs : List MonthFile} {content : List ρ} {a : Archive ρ}

/-! ## one pass of the loop -/

/-- The archive when leg `k` has archived the files `written`. -/
def archived (k : Nat) (written : MonthFile → Option (List ρ)) (a : Archive ρ) : Archive ρ :=
  fun n f =>
    match written f with
    | none => a n f
    | some content =>
        if (a (k - 1) f).isSome then
          if n = k - 1 then some ((a n f).getD [] ++ content) else a n f
        else if n = k then some content else a n f

/-- Of the files `written`, only those named. -/
def only (fs : List MonthFile) (written : MonthFile → Option (List ρ)) :
    MonthFile → Option (List ρ) :=
  fun f => if f ∈ fs then written f else none

/-- The run directory when leg `k` has archived the files named. -/
def afterFiles (k : Nat) (fs : List MonthFile) (d : RunFiles ρ) : RunFiles ρ :=
  { d with
    icm := d.icm.filter fun x => x.1 ∉ fs
    output := archived k (only fs fun f => d.icm.lookup f) d.output }

theorem archived_only_nil (written : MonthFile → Option (List ρ)) :
    archived k (only [] written) a = a := by
  funext n f
  simp [archived, only]

theorem afterFiles_nil : afterFiles k [] d = d := by
  simp [afterFiles, archived_only_nil]

theorem lookup_filter_of_notMem {icm : List (MonthFile × List ρ)} (h : f ∉ fs) :
    (icm.filter fun x => x.1 ∉ fs).lookup f = icm.lookup f := by
  induction icm with
  | nil => rfl
  | cons x icm ih =>
      obtain ⟨g, content⟩ := x
      by_cases hg : g ∈ fs
      · have hne : f ≠ g := fun he => h (he ▸ hg)
        rw [List.filter_cons_of_neg (by simpa using hg), ih, List.lookup_cons,
          beq_false_of_ne hne]
      · rw [List.filter_cons_of_pos (by simpa using hg), List.lookup_cons, List.lookup_cons, ih]

/-- What is archived one after the other is archived together. -/
theorem archived_only_cons (written : MonthFile → Option (List ρ)) (h : f ∉ fs) :
    archived k (only fs written) (archived k (only [f] written) a) =
      archived k (only (f :: fs) written) a := by
  funext n g
  by_cases hg : g = f
  · subst hg
    simp [archived, only, h]
  · simp [archived, only, hg]

theorem only_lookup_filter {icm : List (MonthFile × List ρ)} {done : List MonthFile}
    (h : ∀ f ∈ fs, f ∉ done) :
    (only fs fun f => (icm.filter fun x => x.1 ∉ done).lookup f) = only fs fun f => icm.lookup f := by
  funext f
  by_cases hf : f ∈ fs
  · rw [only, only, if_pos hf, if_pos hf, lookup_filter_of_notMem (h f hf)]
  · rw [only, only, if_neg hf, if_neg hf]

theorem afterFiles_cons (h : f ∉ fs) :
    afterFiles k fs (afterFiles k [f] d) = afterFiles k (f :: fs) d := by
  have hicm : (d.icm.filter fun x => x.1 ∉ [f]).filter (fun x => x.1 ∉ fs) =
      d.icm.filter fun x => x.1 ∉ f :: fs := by
    rw [List.filter_filter]
    congr 1
    funext x
    simp [Bool.and_comm]
  have hdone : ∀ g ∈ fs, g ∉ [f] := fun g hg he => h (List.mem_singleton.mp he ▸ hg)
  simp only [afterFiles, hicm, only_lookup_filter hdone, archived_only_cons _ h]

/-- `update` at one file of one leg. -/
theorem update_update_apply (n m : Nat) (g : MonthFile) :
    Function.update a m (Function.update (a m) f (some content)) n g =
      if g = f ∧ n = m then some content else a n g := by
  by_cases hn : n = m
  · subst hn
    by_cases hg : g = f
    · subst hg
      simp
    · simp [hg]
  · simp [hn]

/-- The branches of the loop archive one file. -/
theorem archived_only_singleton {written : MonthFile → Option (List ρ)}
    (h : written f = some content) :
    archived k (only [f] written) a =
      if (a (k - 1) f).isSome then
        Function.update a (k - 1) (Function.update (a (k - 1)) f
          (some ((a (k - 1) f).getD [] ++ content)))
      else Function.update a k (Function.update (a k) f (some content)) := by
  funext n g
  rw [apply_ite (fun b : Archive ρ => b n g), update_update_apply, update_update_apply]
  by_cases hg : g = f
  · subst hg
    simp only [archived, only, List.mem_singleton, if_true, h, true_and]
    by_cases hn : n = k - 1
    · simp only [hn, if_true]
    · simp only [hn, if_false]
  · simp [archived, only, hg]

theorem filter_ne_eq (icm : List (MonthFile × List ρ)) :
    (icm.filter fun x => x.1 ≠ f) = icm.filter fun x => x.1 ∉ [f] := by
  simp

theorem exec_cat (h : d.icm.lookup f = some content) (hprv : (d.output (k - 1) f).isSome) :
    exec k stamp (.cat f) d = some ([],
      { d with output := archived k (only [f] fun f => d.icm.lookup f) d.output }) := by
  have harchived : archived k (only [f] fun f => d.icm.lookup f) d.output = _ :=
    archived_only_singleton h
  rw [exec, h, harchived, if_pos hprv]
  rfl

theorem exec_rm : exec k stamp (.rm f)
    { d with output := archived k (only [f] fun f => d.icm.lookup f) d.output } =
      some ([], afterFiles k [f] d) := by
  rw [exec, RunFiles.unlink, filter_ne_eq]
  rfl

theorem exec_mv (h : d.icm.lookup f = some content) (hprv : ¬ (d.output (k - 1) f).isSome) :
    exec k stamp (.mv f) d = some ([], afterFiles k [f] d) := by
  have harchived : archived k (only [f] fun f => d.icm.lookup f) d.output = _ :=
    archived_only_singleton h
  rw [exec, h, afterFiles, harchived, if_neg hprv, ← filter_ne_eq]
  rfl

theorem runCmd_test (h : d.icm.lookup f = some content) :
    runCmd k stamp d (.test f) = some (afterFiles k [f] d) := by
  rw [runCmd, exec]
  by_cases hprv : (d.output (k - 1) f).isSome
  · rw [if_pos hprv, Option.bind_some, List.foldlM_cons, exec_cat h hprv]
    simp [exec_rm]
  · rw [if_neg hprv, Option.bind_some, List.foldlM_cons, exec_mv h hprv]
    rfl

theorem lookup_afterFiles (h : f ∉ fs) : (afterFiles k fs d).icm.lookup f = d.icm.lookup f :=
  lookup_filter_of_notMem h

/-- The files of one glob pattern. -/
theorem runCmds_tests (hnodup : fs.Nodup) (hfs : ∀ f ∈ fs, (d.icm.lookup f).isSome) :
    runCmds k stamp (fs.map .test) d = some (afterFiles k fs d) := by
  induction fs generalizing d with
  | nil => rw [afterFiles_nil]; rfl
  | cons f fs ih =>
      obtain ⟨hf, hnodup⟩ := List.nodup_cons.mp hnodup
      obtain ⟨content, hcontent⟩ := Option.isSome_iff_exists.mp (hfs f (by simp))
      have hrest : ∀ g ∈ fs, ((afterFiles k [f] d).icm.lookup g).isSome := by
        intro g hg
        have hne : g ∉ [f] := fun he => hf (List.mem_singleton.mp he ▸ hg)
        rw [lookup_afterFiles hne]
        exact hfs g (List.mem_cons_of_mem f hg)
      rw [List.map_cons, runCmds_cons, runCmd_test hcontent, Option.bind_some, ih hnodup hrest,
        afterFiles_cons hf]

/-- Files of either kind. -/
def BothKinds (icm : List (MonthFile × List ρ)) : Prop :=
  ∀ kind : IcmKind, ∃ x ∈ icm, x.1.kind = kind

/-- The names that one glob pattern matches. -/
def names (kind : IcmKind) (icm : List (MonthFile × List ρ)) : List MonthFile :=
  (icm.map Prod.fst).filter fun f => f.kind = kind

theorem mem_names {kind : IcmKind} {icm : List (MonthFile × List ρ)} :
    f ∈ names kind icm ↔ f ∈ icm.map Prod.fst ∧ f.kind = kind := by
  simp [names]

theorem globIcm_eq (icm : List (MonthFile × List ρ)) :
    globIcm icm =
      (if names .sh icm = [] then [.noMatch] else (names .sh icm).map .test) ++
      (if names .gg icm = [] then [.noMatch] else (names .gg icm).map .test) := by
  simp only [globIcm]
  congr 1
  · split
    · next hnil => exact (if_pos hnil).symm
    · next hne => exact (if_neg hne).symm
  · split
    · next hnil => exact (if_pos hnil).symm
    · next hne => exact (if_neg hne).symm

theorem names_ne_nil {kind : IcmKind} {icm : List (MonthFile × List ρ)} :
    names kind icm ≠ [] ↔ ∃ x ∈ icm, x.1.kind = kind := by
  simp [names, List.filter_eq_nil_iff]

theorem nodup_names {icm : List (MonthFile × List ρ)} (h : (icm.map Prod.fst).Nodup) :
    (names .sh icm ++ names .gg icm).Nodup := by
  refine List.nodup_append.mpr ⟨h.filter _, h.filter _, ?_⟩
  intro f hf g hg he
  have hsh := (mem_names.mp hf).2
  rw [he, (mem_names.mp hg).2] at hsh
  cases hsh

theorem mem_names_append {icm : List (MonthFile × List ρ)} :
    f ∈ names .sh icm ++ names .gg icm ↔ f ∈ icm.map Prod.fst := by
  rw [List.mem_append, mem_names, mem_names]
  cases f.kind <;> simp

theorem lookup_isSome {icm : List (MonthFile × List ρ)} :
    (icm.lookup f).isSome ↔ f ∈ icm.map Prod.fst := by
  rw [List.lookup_isSome_iff, List.mem_map]
  exact exists_congr fun x => by rw [beq_iff_eq, eq_comm]

/-- Archiving every file empties the run directory. -/
theorem afterFiles_all (h : ∀ f, f ∈ fs ↔ f ∈ d.icm.map Prod.fst) :
    afterFiles k fs d =
      { d with icm := [], output := archived k (fun f => d.icm.lookup f) d.output } := by
  have hicm : (d.icm.filter fun x => x.1 ∉ fs) = [] := by
    refine List.filter_eq_nil_iff.mpr fun x hx => ?_
    simpa using (h x.1).mpr (List.mem_map_of_mem hx)
  have honly : only fs (fun f => d.icm.lookup f) = fun f => d.icm.lookup f := by
    funext f
    by_cases hf : f ∈ fs
    · rw [only, if_pos hf]
    · have hnone : ¬ (d.icm.lookup f).isSome := fun hsome => hf ((h f).mpr (lookup_isSome.mp hsome))
      rw [only, if_neg hf, Option.not_isSome_iff_eq_none.mp hnone]
  rw [afterFiles, hicm, honly]

/-- **The archiving loop** archives every file. -/
theorem runCmds_globIcm (hnodup : (d.icm.map Prod.fst).Nodup) (h : BothKinds d.icm) :
    runCmds k stamp (globIcm d.icm) d =
      some { d with icm := [], output := archived k (fun f => d.icm.lookup f) d.output } := by
  rw [globIcm_eq, if_neg (names_ne_nil.mpr (h .sh)), if_neg (names_ne_nil.mpr (h .gg)),
    ← List.map_append, runCmds_tests (nodup_names hnodup), afterFiles_all]
  · exact fun f => mem_names_append
  · exact fun f hf => lookup_isSome.mpr (mem_names_append.mp hf)

theorem runCmds_noMatch : runCmds k stamp [.noMatch] d = none := rfl

/-- Without files of either kind a pattern stands for itself, and the script
ends. -/
theorem bothKinds_of_runCmds {icm : List (MonthFile × List ρ)} {d' : RunFiles ρ}
    (h : runCmds k stamp (globIcm icm) d = some d') : BothKinds icm := by
  rw [globIcm_eq, runCmds_append] at h
  obtain ⟨d₁, hsh, hgg⟩ := Option.bind_eq_some_iff.mp h
  intro kind
  refine names_ne_nil.mp fun hnil => ?_
  cases kind with
  | sh => rw [if_pos hnil, runCmds_noMatch] at hsh; cases hsh
  | gg => rw [if_pos hnil, runCmds_noMatch] at hgg; cases hgg

/-! ## over the legs -/

/-- What a leg wrote, and the archive directory of each file. -/
structure Filing (ρ : Type*) where
  out : Output ρ
  place : MonthFile → Nat

/-- The legs so far and the files. -/
structure ArchiveState (ρ : Type*) where
  filings : List (Filing ρ)
  files : RunFiles ρ

/-- The directory that leg `k` puts a file into. -/
def placeOf (k : Nat) (a : Archive ρ) (f : MonthFile) : Nat :=
  if (a (k - 1) f).isSome then k - 1 else k

/-- The next leg removes leftovers, writes its files, and archives them. -/
def archiveLeg (stamp : Stamp) (o : Output ρ) (s : ArchiveState ρ) : Option (ArchiveState ρ) :=
  let k := s.filings.length + 1
  let d := removeLeftovers s.files
  let d := { d with icm := overwrite o.files d.icm }
  (runCmds k stamp (globIcm d.icm) d).map fun d' =>
    ⟨s.filings ++ [⟨o, placeOf k s.files.output⟩], d'⟩

/-- Legs that write any files. -/
def archiving (stamp : Stamp) : System (ArchiveState ρ) (Output ρ) where
  init s := s = ⟨[], .empty⟩
  step := archiveLeg stamp

variable {filings : List (Filing ρ)} {x y z : Filing ρ} {outs : List (Output ρ)} {o : Output ρ}

/-- The leg left the file, with or without records in it. -/
def Output.Left (o : Output ρ) (f : MonthFile) : Bool := (o.files.lookup f).isSome

/-- The records that the leg wrote to the file. -/
def Output.records (o : Output ρ) (f : MonthFile) : List ρ := (o.files.lookup f).getD []

theorem Output.left_of_records (h : o.records f ≠ []) : o.Left f := by
  unfold Output.records at h
  unfold Output.Left
  cases hlookup : o.files.lookup f with
  | none => simp [hlookup] at h
  | some content => rfl

/-- What each leg wrote to a file that it put into directory `n`. -/
def parts (filings : List (Filing ρ)) (n : Nat) (f : MonthFile) : List (List ρ) :=
  filings.filterMap fun x => if x.place f = n then x.out.files.lookup f else none

/-- The file `f` in directory `n`: what the legs put there, in their order. -/
def filedIn (filings : List (Filing ρ)) (n : Nat) (f : MonthFile) : Option (List ρ) :=
  if (parts filings n f).isEmpty then none else some (parts filings n f).flatten

/-- A leg's records for a file are where those of the leg before are. -/
def Together (filings : List (Filing ρ)) : Prop :=
  Each (fun before y => ∀ x ∈ before.getLast?, ∀ f, x.out.records f ≠ [] →
    y.out.records f ≠ [] → y.place f = x.place f) filings

/-- How many legs left the file one after the other, up to the last one. -/
def streak (outs : List (Output ρ)) (f : MonthFile) : Nat := (outs.rtakeWhile (·.Left f)).length

/-- Of the legs that leave a file one after the other, only the first and the
second, the third and the fourth, and so on, write records one after the
other. -/
def Paired (outs : List (Output ρ)) : Prop :=
  Each (fun before o => ∀ q ∈ before.getLast?, ∀ f, q.records f ≠ [] → o.records f ≠ [] →
    Even (streak before.dropLast f)) outs

/-- No three legs one after the other write records to a file. -/
def NoThreeInARow (outs : List (Output ρ)) : Prop :=
  Each (fun before o => ∀ q ∈ before.getLast?, ∀ r ∈ before.dropLast.getLast?, ∀ f,
    ¬ (r.records f ≠ [] ∧ q.records f ≠ [] ∧ o.records f ≠ [])) outs

/-- The last leg put the file into its own directory. -/
def InLast (before : List (Filing ρ)) (f : MonthFile) : Prop :=
  ∃ x ∈ before.getLast?, x.out.Left f ∧ x.place f = before.length

/-- A leg uses the directory of the leg before for the files there. -/
def FiledAfter (before : List (Filing ρ)) (y : Filing ρ) : Prop :=
  ∀ f, (InLast before f → y.place f = before.length) ∧
    (¬ InLast before f → y.place f = before.length + 1)

theorem parts_concat : parts (filings ++ [z]) n f =
    parts filings n f ++
      (if z.place f = n then z.out.files.lookup f else none).toList := by
  rw [parts, parts, List.filterMap_append]
  rfl

theorem filedIn_concat : filedIn (filings ++ [z]) n f =
    match if z.place f = n then z.out.files.lookup f else none with
    | none => filedIn filings n f
    | some content => some ((filedIn filings n f).getD [] ++ content) := by
  rw [filedIn, filedIn, parts_concat]
  generalize (if z.place f = n then z.out.files.lookup f else none) = last
  cases last with
  | none => simp
  | some content => cases parts filings n f <;> simp

theorem place_le (h : FiledAfter filings y) : y.place f ≤ filings.length + 1 := by
  by_cases hlast : InLast filings f
  · rw [(h f).1 hlast]
    omega
  · rw [(h f).2 hlast]

theorem place_le_length (h : Each FiledAfter filings) (hx : x ∈ filings) :
    x.place f ≤ filings.length := by
  induction filings using List.reverseRecOn with
  | nil => simp at hx
  | append_singleton filings y ih =>
      obtain ⟨hinit, hlast⟩ := each_concat.mp h
      rw [List.length_append, List.length_singleton]
      cases List.mem_append.mp hx with
      | inl hx => exact (ih hinit hx).trans (Nat.le_succ _)
      | inr hx => exact List.mem_singleton.mp hx ▸ place_le hlast

/-- No file is in the directory of a leg to come. -/
theorem filedIn_next (h : Each FiledAfter filings) :
    filedIn filings (filings.length + 1) f = none := by
  have hparts : parts filings (filings.length + 1) f = [] := by
    refine List.filterMap_eq_nil_iff.mpr fun x hx => if_neg ?_
    have hle := place_le_length (f := f) h hx
    omega
  rw [filedIn, hparts]
  rfl

/-- A file is in the directory of the last leg if that leg put it there. -/
theorem filedIn_last (h : Each FiledAfter filings) :
    (filedIn filings filings.length f).isSome ↔ InLast filings f := by
  cases filings using List.reverseRecOn with
  | nil => simp [filedIn, parts, InLast]
  | append_singleton filings y =>
      have hnone := filedIn_next (f := f) (each_concat.mp h).1
      rw [InLast, List.getLast?_concat, List.length_append, List.length_singleton, filedIn_concat,
        hnone]
      by_cases hplace : y.place f = filings.length + 1
      · have hleft : y.out.Left f = (y.out.files.lookup f).isSome := rfl
        rw [if_pos hplace]
        cases hlookup : y.out.files.lookup f <;> simp [hplace, hlookup, hleft]
      · simp [hplace]

/-! ## the loop files what the legs write -/

/-- The archive holds what the legs put there. -/
structure Filed (s : ArchiveState ρ) : Prop where
  contents : ∀ n f, s.files.output n f = filedIn s.filings n f
  places : Each FiledAfter s.filings

theorem filed_init : Filed (⟨[], .empty⟩ : ArchiveState ρ) where
  contents _ _ := rfl
  places := each_nil

/-- The step of the system, with the loop run. -/
theorem archiveLeg_eq (stamp : Stamp) {o : Output ρ} (s : ArchiveState ρ) (h : BothKinds o.files) :
    archiveLeg stamp o s = some
      ⟨s.filings ++ [⟨o, placeOf (s.filings.length + 1) s.files.output⟩],
        { s.files with
          icm := []
          output := archived (s.filings.length + 1) (fun f => o.files.lookup f)
            s.files.output }⟩ := by
  have hicm : overwrite o.files (removeLeftovers s.files).icm = o.files := overwrite_nil _
  rw [archiveLeg, hicm,
    runCmds_globIcm (d := { removeLeftovers s.files with icm := o.files }) o.nodup h]
  rfl

theorem bothKinds_of_archiveLeg {o : Output ρ} {s s' : ArchiveState ρ}
    (h : archiveLeg stamp o s = some s') : BothKinds o.files := by
  have hicm : overwrite o.files (removeLeftovers s.files).icm = o.files := overwrite_nil _
  rw [archiveLeg, hicm] at h
  obtain ⟨d, hd, _⟩ := Option.map_eq_some_iff.mp h
  exact bothKinds_of_runCmds hd

/-- Legs that write files of either kind complete. -/
theorem exists_run (stamp : Stamp) (os : List (Output ρ)) (s : ArchiveState ρ)
    (h : ∀ o ∈ os, BothKinds o.files) :
    ∃ s', run (archiving stamp) os s = some s' ∧
      s'.filings.map Filing.out = s.filings.map Filing.out ++ os := by
  induction os generalizing s with
  | nil => exact ⟨s, rfl, by simp⟩
  | cons o os ih =>
      have hstep := archiveLeg_eq stamp s (h o (by simp))
      obtain ⟨s', hrun, hout⟩ := ih
        ⟨s.filings ++ [⟨o, placeOf (s.filings.length + 1) s.files.output⟩], _⟩
        fun q hq => h q (List.mem_cons_of_mem o hq)
      refine ⟨s', ?_, by simpa using hout⟩
      rw [run, show (archiving stamp).step o s = _ from hstep, Option.bind_some, hrun]

theorem placeOf_succ : placeOf (k + 1) a f = if (a k f).isSome then k else k + 1 := rfl

theorem filedAfter_placeOf {s : ArchiveState ρ} (h : Filed s) (o : Output ρ) :
    FiledAfter s.filings ⟨o, placeOf (s.filings.length + 1) s.files.output⟩ := by
  intro f
  have hlast : (s.files.output s.filings.length f).isSome ↔ InLast s.filings f := by
    rw [h.contents, filedIn_last h.places]
  simp only [placeOf_succ]
  exact ⟨fun hin => if_pos (hlast.mpr hin), fun hnot => if_neg (hnot ∘ hlast.mp)⟩

theorem filed_step {o : Output ρ} {s s' : ArchiveState ρ} (h : Filed s)
    (hstep : archiveLeg stamp o s = some s') : Filed s' := by
  rw [archiveLeg_eq stamp s (bothKinds_of_archiveLeg hstep)] at hstep
  obtain rfl := Option.some.inj hstep
  refine ⟨fun n f => ?_, each_concat.mpr ⟨h.places, filedAfter_placeOf h o⟩⟩
  · rw [filedIn_concat, ← h.contents]
    simp only [archived]
    cases hlookup : o.files.lookup f with
    | none => simp
    | some content =>
        simp only [placeOf_succ, Nat.add_sub_cancel]
        by_cases hprv : (s.files.output s.filings.length f).isSome
        · by_cases hn : n = s.filings.length
          · simp [hprv, hn]
          · simp [hprv, hn, Ne.symm hn]
        · by_cases hn : n = s.filings.length + 1
          · have hnone := filedIn_next (f := f) h.places
            rw [← h.contents] at hnone
            simp [hprv, hn, hnone]
          · simp [hprv, hn, Ne.symm hn]

theorem filed_of_reachable {s : ArchiveState ρ} (h : Reachable (archiving stamp) s) :
    Filed s := by
  refine h.invariant (I := Filed) ?_ ?_
  · rintro s rfl
    exact filed_init
  · intro s o s' _ hs hstep
    exact filed_step hs hstep

/-! ## together -/

theorem streak_concat : streak (outs ++ [o]) f = if o.Left f then streak outs f + 1 else 0 := by
  unfold streak
  rw [List.rtakeWhile_concat]
  split <;> simp

/-- The legs take turns: one puts the file into its own directory, the next
one puts it there too, and leaves none in its own. -/
theorem inLast_iff (h : Each FiledAfter filings) :
    InLast filings f ↔ Odd (streak (filings.map Filing.out) f) := by
  induction filings using List.reverseRecOn with
  | nil => simp [InLast, streak]
  | append_singleton filings y ih =>
      obtain ⟨hbefore, hy⟩ := each_concat.mp h
      have hlast : InLast (filings ++ [y]) f ↔ y.out.Left f ∧ y.place f = filings.length + 1 := by
        simp [InLast]
      rw [hlast, List.map_append, List.map_singleton, streak_concat]
      by_cases hleft : y.out.Left f
      · have hown : y.place f = filings.length + 1 ↔ ¬ InLast filings f := by
          refine ⟨fun hplace hin => ?_, (hy f).2⟩
          rw [(hy f).1 hin] at hplace
          omega
        rw [if_pos hleft, Nat.odd_add_one, ← ih hbefore, hown]
        exact and_iff_right hleft
      · simp [hleft]

/-- The step of the law: a leg follows the leg before exactly if that one
used its own directory. -/
theorem place_eq_iff (hplaces : Each FiledAfter (filings ++ [y])) (hz : FiledAfter (filings ++ [y]) z)
    (hleft : y.out.Left f) :
    z.place f = y.place f ↔ Even (streak (filings.map Filing.out) f) := by
  have hodd := inLast_iff (f := f) hplaces
  rw [List.map_append, List.map_singleton, streak_concat, if_pos hleft, Nat.odd_add_one,
    Nat.not_odd_iff_even] at hodd
  rw [← hodd]
  constructor
  · intro hplace
    by_contra hnot
    have hnext := (hz f).2 hnot
    have hle := place_le (f := f) (each_concat.mp hplaces).2
    rw [List.length_append, List.length_singleton] at hnext
    omega
  · intro hin
    have hnext := (hz f).1 hin
    obtain ⟨x, hx, -, hplace⟩ := hin
    obtain rfl : y = x := by simpa using hx
    rw [hnext, hplace]

theorem together_iff (h : Each FiledAfter filings) :
    Together filings ↔ Paired (filings.map Filing.out) := by
  induction filings using List.reverseRecOn with
  | nil => exact iff_of_true each_nil each_nil
  | append_singleton filings z ih =>
      obtain ⟨hbefore, hz⟩ := each_concat.mp h
      rw [List.map_append, List.map_singleton, Together, Paired, each_concat, each_concat]
      refine and_congr (ih hbefore) ?_
      cases filings using List.reverseRecOn with
      | nil => simp
      | append_singleton filings y =>
          simp only [List.getLast?_concat, Option.mem_some_iff, forall_eq', List.map_append,
            List.map_singleton, List.dropLast_concat]
          refine forall_congr' fun f => imp_congr_right fun hy => imp_congr_right fun _ => ?_
          exact place_eq_iff hbefore hz (Output.left_of_records hy)

/-- Where no file is empty, the pairs are never left exactly if no three legs
in a row write to a file. -/
theorem paired_iff_noThreeInARow (h : ∀ o ∈ outs, ∀ f, o.Left f → o.records f ≠ []) :
    Paired outs ↔ NoThreeInARow outs := by
  induction outs using List.reverseRecOn with
  | nil => exact iff_of_true each_nil each_nil
  | append_singleton outs o ih =>
      have hinit := ih fun q hq => h q (List.mem_append_left _ hq)
      simp only [Paired, NoThreeInARow, each_concat] at hinit ⊢
      rw [hinit]
      refine and_congr_right fun hthree => ?_
      rw [← hinit] at hthree
      cases outs using List.reverseRecOn with
      | nil => simp
      | append_singleton outs q =>
          simp only [List.getLast?_concat, Option.mem_some_iff, forall_eq', List.dropLast_concat]
          cases outs using List.reverseRecOn with
          | nil => simp [streak]
          | append_singleton outs r =>
              simp only [List.getLast?_concat, Option.mem_some_iff, forall_eq']
              refine forall_congr' fun f => ?_
              rw [streak_concat]
              by_cases hr : r.Left f
              · have hrecords : r.records f ≠ [] := h r (by simp) f hr
                have heven := (each_concat.mp hthree).2 r (by simp) f hrecords
                simp only [List.dropLast_concat] at heven
                simp only [hr, if_true, Nat.even_add_one]
                exact ⟨fun hodd hall => hodd hall.2.1 hall.2.2 (heven hall.2.1),
                  fun hnot hq ho _ => hnot ⟨hrecords, hq, ho⟩⟩
              · have hnone : r.records f = [] := by
                  by_contra hrecords
                  exact hr (Output.left_of_records hrecords)
                simp [hr, hnone]

/-- **The archive of a run**: after every leg each file of a leg is in one
directory, behind what legs before it put there.  A leg's records follow
those of the leg before in every file exactly if these two legs are always
the first and second, the third and fourth, and so on, of the legs that left
the file one after the other. -/
theorem archiving_iff (stamp : Stamp) {s : ArchiveState ρ} (h : Reachable (archiving stamp) s) :
    ((∀ n f, s.files.output n f = filedIn s.filings n f) ∧ Together s.filings) ↔
      Paired (s.filings.map Filing.out) := by
  have hfiled := filed_of_reachable h
  rw [← together_iff hfiled.places]
  exact and_iff_right hfiled.contents

/-- A leg that writes one record to either file of the month 201001. -/
def oneRecord (r : Nat) : Output Nat where
  files := [(⟨.sh, 201001⟩, [r]), (⟨.gg, 201001⟩, [r])]
  nodup := by simp

/-- A leg that writes to the files of two months. -/
def twoMonths (first second : List Nat) : Output Nat where
  files := [(⟨.sh, 201001⟩, first), (⟨.sh, 201002⟩, second), (⟨.gg, 201001⟩, first),
    (⟨.gg, 201002⟩, second)]
  nodup := by simp

theorem bothKinds_oneRecord (r : Nat) : BothKinds (oneRecord r).files := by
  intro kind
  cases kind <;> simp [oneRecord]

theorem bothKinds_twoMonths (first second : List Nat) :
    BothKinds (twoMonths first second).files := by
  intro kind
  cases kind <;> simp [twoMonths]

theorem lookup_oneRecord (r : Nat) :
    (oneRecord r).files.lookup f = if f.month = 201001 then some [r] else none := by
  obtain ⟨kind, month⟩ := f
  cases kind <;> by_cases hmonth : month = 201001 <;>
    simp [oneRecord, List.lookup_cons, beq_eq_decide, hmonth]

theorem lookup_twoMonths (first second : List Nat) :
    (twoMonths first second).files.lookup f =
      if f.month = 201001 then some first else if f.month = 201002 then some second else none := by
  obtain ⟨kind, month⟩ := f
  cases kind <;> by_cases hfirst : month = 201001 <;> by_cases hsecond : month = 201002 <;>
    simp [twoMonths, List.lookup_cons, beq_eq_decide, hfirst, hsecond]

/-- The second leg goes on in January and begins February, the third one goes
on in February and leaves empty files for January, and the fourth one writes
to these. -/
theorem archiving_iff_pairs : ∃ s,
    run (archiving ⟨0, 0⟩) [oneRecord 1, twoMonths [2] [3], twoMonths [] [4], oneRecord 5]
      ⟨[], .empty⟩ = some s ∧
    s.filings.map Filing.out = [oneRecord 1, twoMonths [2] [3], twoMonths [] [4], oneRecord 5] ∧
    (∀ n f, s.files.output n f = filedIn s.filings n f) ∧ Together s.filings := by
  obtain ⟨s, hrun, hout⟩ := exists_run ⟨0, 0⟩
    [oneRecord 1, twoMonths [2] [3], twoMonths [] [4], oneRecord 5] ⟨[], .empty⟩
    (by simp [bothKinds_oneRecord, bothKinds_twoMonths])
  refine ⟨s, hrun, hout, (archiving_iff ⟨0, 0⟩ (reachable_of_run _ rfl hrun)).mpr ?_⟩
  have hlegs : s.filings.map Filing.out = ((([] ++ [oneRecord 1]) ++ [twoMonths [2] [3]]) ++
      [twoMonths [] [4]]) ++ [oneRecord 5] := hout
  rw [hlegs, Paired, each_concat, each_concat, each_concat, each_concat]
  refine ⟨⟨⟨⟨each_nil, by simp⟩, by simp [streak]⟩, ?_⟩, ?_⟩
  · intro q _ f _ hrecords
    have hmonth : f.month ≠ 201001 := by
      intro hfirst
      simp [Output.records, lookup_twoMonths, hfirst] at hrecords
    simp [streak, List.rtakeWhile, Output.Left, lookup_oneRecord, hmonth]
  · intro q hq f hthird hfourth
    obtain rfl : twoMonths [] [4] = q := by simpa using hq
    by_cases hmonth : f.month = 201001
    · simp [Output.records, lookup_twoMonths, hmonth] at hthird
    · simp [Output.records, lookup_oneRecord, hmonth] at hfourth

/-- The third leg in one month does not find the records of the second. -/
theorem threeLegs_split : ∃ s,
    run (archiving ⟨0, 0⟩) [oneRecord 1, oneRecord 2, oneRecord 3] ⟨[], .empty⟩ = some s ∧
    s.files.output 1 ⟨.gg, 201001⟩ = some [1, 2] ∧ s.files.output 2 ⟨.gg, 201001⟩ = none ∧
    s.files.output 3 ⟨.gg, 201001⟩ = some [3] ∧ ¬ Together s.filings := by
  have hrun : (run (archiving ⟨0, 0⟩) [oneRecord 1, oneRecord 2, oneRecord 3]
      ⟨[], .empty⟩).map (fun s =>
        (s.filings.map (·.place ⟨.gg, 201001⟩), s.filings.map Filing.out,
          [1, 2, 3].map fun n => s.files.output n ⟨.gg, 201001⟩)) =
      some ([1, 1, 3], [oneRecord 1, oneRecord 2, oneRecord 3], [some [1, 2], none, some [3]]) := by
    rfl
  obtain ⟨s, hs, heq⟩ := Option.map_eq_some_iff.mp hrun
  simp only [Prod.mk.injEq, List.map_cons, List.map_nil, List.cons.injEq, and_true] at heq
  obtain ⟨hplaces, houts, h1, h2, h3⟩ := heq
  refine ⟨s, hs, h1, h2, h3, ?_⟩
  obtain ⟨x, rest, hfilings, -, hrest⟩ := List.map_eq_cons_iff.mp hplaces
  obtain ⟨y, rest, rfl, hy, hrest⟩ := List.map_eq_cons_iff.mp hrest
  obtain ⟨z, rest, rfl, hz, hrest⟩ := List.map_eq_cons_iff.mp hrest
  obtain rfl := List.map_eq_nil_iff.mp hrest
  simp only [hfilings, List.map_cons, List.map_nil, List.cons.injEq, and_true] at houts
  intro htogether
  have hwy : y.out.records ⟨.gg, 201001⟩ ≠ [] := by rw [houts.2.1]; decide
  have hwz : z.out.records ⟨.gg, 201001⟩ ≠ [] := by rw [houts.2.2]; decide
  have hplace := htogether [x, y] z [] hfilings y rfl _ hwy hwz
  rw [hy, hz] at hplace
  cases hplace

end ContainerHackathon.EcEarth
