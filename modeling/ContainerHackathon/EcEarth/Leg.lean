import ContainerHackathon.Lib.Journal

/-!
# EcEarth.Leg

The dates of one leg of an EC-Earth run, as `ece-esm.sh` computes them at
the top of its loop over the legs.  A leg starts where the last record of
`ece.info` ends, or at the start of the run; its end comes from the restart
frequency or is the end of the run, and is clipped to the latter.

Instants are seconds; GNU `date` arithmetic and the calendar are fields of
`Config`.
-/

namespace ContainerHackathon.EcEarth

open Journal

/-! ## settings and variables -/

/-- What one experiment keeps fixed over all its invocations. -/
structure Config where
  runStartDate : Int
  runEndDate : Int
  rstFreq : String
  /-- `date -d "${date} + ${freq}"`. -/
  dateAdd : Int → String → Int
  /-- `has_config lpjg`. -/
  lpjg : Bool
  /-- `date +%m%d%T -u -d "${date}"` gives `010100:00:00`. -/
  isNewYear : Int → Bool

/-- The variables that a record of `ece.info` assigns. -/
structure Leg where
  legNumber : Nat
  legStartDate : Int
  legEndDate : Int
  deriving DecidableEq, Repr

/-- The shell variables of the loop.  `leg` and `legIsRestart` are assigned
in every iteration before they are read. -/
structure Vars where
  runNumLegs : Int
  forceRunFromScratch : Bool
  ifsLastout : Bool
  legIsRestart : Bool
  leg : Leg
  deriving DecidableEq, Repr

/-- The variables when the loop is entered. -/
def Vars.init (runNumLegs : Int) (forceRunFromScratch : Bool) : Vars where
  runNumLegs := runNumLegs
  forceRunFromScratch := forceRunFromScratch
  ifsLastout := false
  legIsRestart := false
  leg := ⟨0, 0, 0⟩

/-- Why the script stops before it prepares a leg. -/
inductive Exit
  | nothingLeft
  | error (message : String)
  deriving DecidableEq, Repr

/-! ## the dates of a leg -/

/-- `. ./${ece_info_file}`: the assignments of all records, in order. -/
def source (eceInfo : List Leg) (leg : Leg) : Leg := eceInfo.foldl (fun _ r => r) leg

/-- `ece.info` is ignored. -/
def fromScratch (eceInfo : List Leg) (v : Vars) : Bool :=
  v.forceRunFromScratch || eceInfo.isEmpty

def setLegStart (c : Config) (eceInfo : List Leg) (v : Vars) : Vars :=
  if fromScratch eceInfo v then
    { v with
      legIsRestart := false
      leg := { v.leg with legStartDate := c.runStartDate, legNumber := 1 } }
  else
    let info := source eceInfo v.leg
    { v with
      legIsRestart := true
      leg := { info with legStartDate := info.legEndDate, legNumber := info.legNumber + 1 } }

def setLegEnd (c : Config) (v : Vars) : Vars :=
  let legEndDate :=
    if c.rstFreq ≠ "" then c.dateAdd v.leg.legStartDate c.rstFreq else c.runEndDate
  { v with leg := { v.leg with legEndDate := legEndDate } }

/-- The date check of LPJ-GUESS, which sees the leg before it is clipped. -/
def lpjgRefuses (c : Config) (v : Vars) : Bool :=
  c.lpjg && (!c.isNewYear v.leg.legStartDate ||
    !c.isNewYear (c.dateAdd v.leg.legStartDate c.rstFreq))

def clipLegEnd (c : Config) (v : Vars) : Vars :=
  if c.runEndDate ≤ v.leg.legEndDate then
    { v with ifsLastout := true, leg := { v.leg with legEndDate := c.runEndDate } }
  else v

def Leg.legLengthSec (leg : Leg) : Int := leg.legEndDate - leg.legStartDate

def lpjgMsg : String :=
  "LPJ-GUESS runs must start on Jan 1 and end on Dec 31. Multi-year legs are allowed."

/-- The top of the loop body, down to the check that there is time left to
simulate. -/
def computeLeg (c : Config) (eceInfo : List Leg) (v : Vars) : Except Exit Vars :=
  let v := setLegEnd c (setLegStart c eceInfo v)
  if lpjgRefuses c v then .error (.error lpjgMsg)
  else
    let v := clipLegEnd c v
    if v.leg.legLengthSec ≤ 0 then .error .nothingLeft else .ok v

/-! ## chains of legs -/

/-- Where the leg behind the legs `before` has to start. -/
def nextStart (c : Config) (before : List Leg) : Int :=
  before.getLast?.elim c.runStartDate Leg.legEndDate

/-- `leg` continues the legs `before`: it has the next number, starts where
they end, has positive length and stays inside the run. -/
structure Follows (c : Config) (before : List Leg) (leg : Leg) : Prop where
  number : leg.legNumber = before.length + 1
  start : leg.legStartDate = nextStart c before
  positive : leg.legStartDate < leg.legEndDate
  bounded : leg.legEndDate ≤ c.runEndDate

/-- Every leg follows the legs before it. -/
def Chained (c : Config) (legs : List Leg) : Prop := Each (Follows c) legs

variable {c : Config} {eceInfo before : List Leg} {leg : Leg} {v v' : Vars}

@[simp] theorem nextStart_nil : nextStart c [] = c.runStartDate := rfl

@[simp] theorem nextStart_concat : nextStart c (before ++ [leg]) = leg.legEndDate := by
  simp [nextStart]

@[simp] theorem source_concat (l : Leg) : source (before ++ [leg]) l = leg := by
  simp [source, foldl_overwrite]

/-- The records a new leg continues. -/
def base (eceInfo : List Leg) (v : Vars) : List Leg :=
  if fromScratch eceInfo v then [] else eceInfo

theorem setLegStart_spec (hchain : Chained c eceInfo) :
    (setLegStart c eceInfo v).leg.legNumber = (base eceInfo v).length + 1 ∧
      (setLegStart c eceInfo v).leg.legStartDate = nextStart c (base eceInfo v) := by
  unfold setLegStart base
  cases hs : fromScratch eceInfo v with
  | true => simp
  | false =>
      cases eceInfo using List.reverseRecOn with
      | nil => simp [fromScratch] at hs
      | append_singleton before last _ =>
          have hlast : Follows c before last := (each_concat.mp hchain).2
          simp [hlast.number]

@[simp] theorem setLegStart_ifsLastout :
    (setLegStart c eceInfo v).ifsLastout = v.ifsLastout := by
  unfold setLegStart
  split <;> rfl

@[simp] theorem setLegStart_legIsRestart :
    (setLegStart c eceInfo v).legIsRestart = !fromScratch eceInfo v := by
  unfold setLegStart
  cases hs : fromScratch eceInfo v <;> simp

@[simp] theorem setLegEnd_ifsLastout : (setLegEnd c v).ifsLastout = v.ifsLastout := rfl

@[simp] theorem setLegEnd_legIsRestart : (setLegEnd c v).legIsRestart = v.legIsRestart := rfl

@[simp] theorem setLegEnd_legNumber : (setLegEnd c v).leg.legNumber = v.leg.legNumber := rfl

@[simp] theorem setLegEnd_legStartDate :
    (setLegEnd c v).leg.legStartDate = v.leg.legStartDate := rfl

/-- Clipping keeps the leg inside the run and notes whether it is the last. -/
theorem clipLegEnd_spec :
    (clipLegEnd c v).leg.legEndDate ≤ c.runEndDate ∧
      ((clipLegEnd c v).ifsLastout = true ↔
        v.ifsLastout = true ∨ (clipLegEnd c v).leg.legEndDate = c.runEndDate) := by
  unfold clipLegEnd
  split
  · simp
  · rename_i hlt
    refine ⟨by omega, ⟨.inl, fun h => h.resolve_right (by omega)⟩⟩

@[simp] theorem clipLegEnd_legIsRestart : (clipLegEnd c v).legIsRestart = v.legIsRestart := by
  unfold clipLegEnd
  split <;> rfl

@[simp] theorem clipLegEnd_legNumber :
    (clipLegEnd c v).leg.legNumber = v.leg.legNumber := by
  unfold clipLegEnd
  split <;> rfl

@[simp] theorem clipLegEnd_legStartDate :
    (clipLegEnd c v).leg.legStartDate = v.leg.legStartDate := by
  unfold clipLegEnd
  split <;> rfl

/-- The steps that the script has passed when it goes on to prepare a leg. -/
theorem computeLeg_eq_ok (h : computeLeg c eceInfo v = .ok v') :
    lpjgRefuses c (setLegEnd c (setLegStart c eceInfo v)) = false ∧
      v' = clipLegEnd c (setLegEnd c (setLegStart c eceInfo v)) ∧ 0 < v'.leg.legLengthSec := by
  simp only [computeLeg] at h
  split at h
  · cases h
  · rename_i hlpjg
    split at h
    · cases h
    · rename_i hlen
      obtain rfl := Except.ok.inj h
      exact ⟨by simpa using hlpjg, rfl, by omega⟩

/-- **A leg that the script prepares** follows the records it starts from,
and `ifs_lastout` was set before or is set because the leg ends the run. -/
theorem computeLeg_spec (hchain : Chained c eceInfo) (h : computeLeg c eceInfo v = .ok v') :
    Follows c (base eceInfo v) v'.leg ∧
      (v'.ifsLastout = true ↔ v.ifsLastout = true ∨ v'.leg.legEndDate = c.runEndDate) := by
  obtain ⟨-, rfl, hlen⟩ := computeLeg_eq_ok h
  obtain ⟨hnumber, hstart⟩ := setLegStart_spec (v := v) hchain
  obtain ⟨hbound, hlast⟩ := clipLegEnd_spec (c := c) (v := setLegEnd c (setLegStart c eceInfo v))
  refine ⟨⟨by simpa using hnumber, by simpa using hstart, ?_, hbound⟩, by simpa using hlast⟩
  rw [Leg.legLengthSec] at hlen
  omega

theorem computeLeg_legIsRestart (h : computeLeg c eceInfo v = .ok v') :
    v'.legIsRestart = !fromScratch eceInfo v := by
  obtain ⟨-, rfl, -⟩ := computeLeg_eq_ok h
  simp

/-- The end dates of a chain grow. -/
theorem Chained.end_le (h : Chained c eceInfo) :
    ∀ r ∈ eceInfo, r.legEndDate ≤ nextStart c eceInfo := by
  have hmono : ∀ rs q r, Follows c (rs ++ [q]) r → q.legEndDate ≤ r.legEndDate :=
    fun rs q r hr => by
      have hstart : r.legStartDate = q.legEndDate := by simpa using hr.start
      have := hr.positive
      omega
  intro r hr
  cases eceInfo using List.reverseRecOn with
  | nil => simp at hr
  | append_singleton before last _ => simpa using h.le_last hmono r hr last (by simp)

end ContainerHackathon.EcEarth
