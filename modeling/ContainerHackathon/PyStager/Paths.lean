import ContainerHackathon.Lib.PathString
import ContainerHackathon.PyStager.Quoting

/-!
# PyStager.Paths

Where PyStager looks.  A `Trace` records, for one process at load level 0,
the pathnames it uses for the directories of its jobs, each with the
working directory at that moment; `os.chdir` changes the latter.  A
pathname in a command line is used if the shell passes it on as written.
The jobs of a worker are the pieces of its slot between the `;`, each used
in the place of the listed name that it comes from.  A trace goes on to its
end: a call can only raise after the trace has used a wrong pathname, or
when the destination cannot be created at all.

`samePlaces_iff` says for which spellings of the two parameters and of the
names all these pathnames lead to the same places.
-/

namespace ContainerHackathon.PyStager

open PathString Shell

/-! ## traces -/

inductive Side
  | source
  | destination
  deriving DecidableEq, Repr

/-- A pathname used for the directory of a listed name; there is none where
a command was meant to use one and the shell made something else out of its
line. -/
structure PathUse where
  side : Side
  item : String
  cwd : Location
  path : Option String
  deriving DecidableEq, Repr

structure Trace where
  cwd : Location
  uses : List PathUse

namespace Trace

def use (t : Trace) (side : Side) (item path : String) : Trace :=
  { t with uses := t.uses ++ [⟨side, item, t.cwd, some path⟩] }

/-- `os.system` on a line that is meant to consist of `words`; the command
inherits the working directory. -/
def command (t : Trace) (environment : String → Option (List String)) (item line : String)
    (words : List String) (operands : List (Side × String)) : Trace :=
  { t with uses := t.uses ++ operands.map (fun x => ⟨x.1, item, t.cwd,
      if arguments environment line = some words then some x.2 else none⟩) }

/-- `os.chdir`. -/
def chdir (t : Trace) (path : String) : Trace := { t with cwd := resolve t.cwd path }

end Trace

/-- `directory_scanner`: one `path` for `isdir`, `du` and `listdir`. -/
def scannerTrace (sourcePath : String) (jobs : List String) (t : Trace) : Trace :=
  jobs.foldl (fun t d => t.use .source d (sourcePath ++ d)) t

section program

variable (environment : String → Option (List String))

/-- `data_structure_builder`: the existence check and, for a name that is
missing, the `mkdir`. -/
def builderTrace (missing : String → Bool) (destinationDir : String) (jobs : List String)
    (t : Trace) : Trace :=
  jobs.foldl (fun t dirName =>
    let t := t.use .destination dirName (destinationDir ++ dirName)
    if missing dirName then
      t.command environment dirName (mkdirStr dirName) ["mkdir", dirName] [(.destination, dirName)]
    else t)
    (t.chdir destinationDir)

/-- `hash_directory`: back to `hash_rep_file`, walk the directory, enter it
and open its files there. -/
def hashTrace (sourcePath item job : String) (hashRepFile : Location) (side : Side) (t : Trace) :
    Trace :=
  let t := { t with cwd := hashRepFile }
  let directory := directoryToProcess sourcePath job
  ((t.use side item directory).chdir directory).use side item "."

/-- A worker's job at load level 0, a piece of `item`. -/
def jobTrace (currentPath : Location) (params : Params) (t : Trace) (item job : String) : Trace :=
  let t := if params.checksumStatus = 1 then
      hashTrace params.sourceDir item job currentPath .source t
    else t
  if params.rsyncStatus = 1 then
    let source := params.sourceDir ++ job ++ "/"
    let destination := params.destinationDir ++ "/" ++ job
    let t := t.command environment item (rsyncDirectoryStr params.sourceDir params.destinationDir job)
      ["rsync", "-r", source, destination] [(.source, source), (.destination, destination)]
    if params.checksumStatus = 1 then
      { hashTrace params.destinationDir item job currentPath .destination t with cwd := currentPath }
    else t
  else t

def masterTrace (currentPath : Location) (params : Params) (missing : String → Bool)
    (jobs : List String) : Trace :=
  builderTrace environment missing params.destinationDir jobs
    (scannerTrace params.sourceDir jobs ⟨currentPath, []⟩)

/-- The jobs of worker `w`, each behind the listed name it is a piece of. -/
def handedJobs (p : Nat) (jobs : List String) (w : Nat) : List (String × String) :=
  (itemsOf p jobs w).flatMap (fun item => (Delimited.split ';' item).map (fun job => (item, job)))

def workerTrace (currentPath : Location) (params : Params) (handed : List (String × String)) : Trace :=
  handed.foldl (fun t x => jobTrace environment currentPath params t x.1 x.2) ⟨currentPath, []⟩

/-- The pathnames used by all `p` ranks. -/
def pathUses (currentPath : Location) (params : Params) (missing : String → Bool) (p : Nat)
    (jobs : List String) : List PathUse :=
  (masterTrace environment currentPath params missing jobs).uses ++ (List.range (p - 1)).flatMap
    (fun r => (workerTrace environment currentPath params (handedJobs p jobs (r + 1))).uses)

end program

/-- The handed jobs are those of the job loop. -/
theorem map_snd_handedJobs (p : Nat) (jobs : List String) (w : Nat) :
    (handedJobs p jobs w).map Prod.snd = jobList (slotOf (itemsOf p jobs w)) := by
  rw [jobList_slotOf, handedJobs, List.map_flatMap]
  simp [Function.comp_def]

/-- The directory that a side of the transfer is meant to be in. -/
def Params.dirOf (params : Params) : Side → String
  | .source => params.sourceDir
  | .destination => params.destinationDir

/-- There is a pathname, and it denotes the item's directory under the
parameter as the program's directory sees it. -/
def PathUse.Right (currentPath : Location) (params : Params) (u : PathUse) : Prop :=
  ∃ path, u.path = some path ∧
    resolve u.cwd path = resolve currentPath (params.dirOf u.side) ++ [u.item]

/-! ## the uses, listed -/

variable {environment : String → Option (List String)} {c : Location} {params : Params}
  {missing : String → Bool} {p : Nat} {jobs : List String}

theorem scannerTrace_eq (sourcePath : String) (jobs : List String) (t : Trace) :
    scannerTrace sourcePath jobs t =
      ⟨t.cwd, t.uses ++ jobs.map (fun d => ⟨.source, d, t.cwd, some (sourcePath ++ d)⟩)⟩ := by
  induction jobs generalizing t with
  | nil => simp [scannerTrace]
  | cons d jobs ih =>
      have hcons : scannerTrace sourcePath (d :: jobs) t =
          scannerTrace sourcePath jobs (t.use .source d (sourcePath ++ d)) := rfl
      rw [hcons, ih]
      simp [Trace.use]

/-- What `mkdir` creates. -/
def mkdirUse (environment : String → Option (List String)) (cwd : Location) (dirName : String) :
    PathUse :=
  ⟨.destination, dirName, cwd,
    if arguments environment (mkdirStr dirName) = some ["mkdir", dirName] then some dirName else none⟩

/-- The builder's uses for one name, in the destination. -/
def builderUses (environment : String → Option (List String)) (missing : String → Bool)
    (destinationDir : String) (cwd : Location) (dirName : String) : List PathUse :=
  ⟨.destination, dirName, cwd, some (destinationDir ++ dirName)⟩ ::
    if missing dirName then [mkdirUse environment cwd dirName] else []

theorem builderTrace_eq (destinationDir : String) (jobs : List String) (t : Trace) :
    (builderTrace environment missing destinationDir jobs t).uses = t.uses ++
      jobs.flatMap (builderUses environment missing destinationDir (resolve t.cwd destinationDir)) := by
  have hloop : ∀ t : Trace, (jobs.foldl (fun t dirName =>
      let t := t.use .destination dirName (destinationDir ++ dirName)
      if missing dirName then t.command environment dirName (mkdirStr dirName) ["mkdir", dirName]
        [(.destination, dirName)] else t) t).uses =
      t.uses ++ jobs.flatMap (builderUses environment missing destinationDir t.cwd) := by
    induction jobs with
    | nil => simp
    | cons d jobs ih =>
        intro t
        rw [List.foldl_cons, ih]
        cases hd : missing d <;>
          simp [hd, Trace.use, Trace.command, builderUses, mkdirUse]
  exact hloop _

/-- The working directory of the `rsync` command. -/
def rsyncCwd (c : Location) (params : Params) (job : String) : Location :=
  if params.checksumStatus = 1 then resolve c (params.sourceDir ++ job) else c

/-- The uses of `hash_directory`. -/
def hashUses (c : Location) (sourcePath item job : String) (side : Side) : List PathUse :=
  [⟨side, item, c, some (sourcePath ++ job)⟩,
    ⟨side, item, resolve c (sourcePath ++ job), some "."⟩]

/-- The uses of the `rsync` command. -/
def rsyncUses (environment : String → Option (List String)) (c : Location) (params : Params)
    (item job : String) : List PathUse :=
  let source := params.sourceDir ++ job ++ "/"
  let destination := params.destinationDir ++ "/" ++ job
  [(Side.source, source), (Side.destination, destination)].map (fun x =>
    ⟨x.1, item, rsyncCwd c params job,
      if arguments environment (rsyncDirectoryStr params.sourceDir params.destinationDir job) =
        some ["rsync", "-r", source, destination] then some x.2 else none⟩)

/-- The uses of one job. -/
def jobUses (environment : String → Option (List String)) (c : Location) (params : Params)
    (item job : String) : List PathUse :=
  (if params.checksumStatus = 1 then hashUses c params.sourceDir item job .source else []) ++
  if params.rsyncStatus = 1 then
    rsyncUses environment c params item job ++
    if params.checksumStatus = 1 then hashUses c params.destinationDir item job .destination else []
  else []

variable (environment) in
/-- A job starts in the program's directory, unless it goes there itself. -/
theorem jobTrace_spec (params : Params) (t : Trace) (item job : String)
    (h : params.checksumStatus ≠ 1 → t.cwd = c) :
    (jobTrace environment c params t item job).uses = t.uses ++ jobUses environment c params item job ∧
      (params.checksumStatus ≠ 1 → (jobTrace environment c params t item job).cwd = c) := by
  by_cases hk : params.checksumStatus = 1 <;> by_cases hr : params.rsyncStatus = 1
  · simp [jobTrace, jobUses, hashUses, rsyncUses, hashTrace, Trace.use, Trace.command, Trace.chdir,
      rsyncCwd, directoryToProcess, hk, hr]
  · simp [jobTrace, jobUses, hashUses, hashTrace, Trace.use, Trace.chdir,
      directoryToProcess, hk, hr]
  · simp [jobTrace, jobUses, rsyncUses, Trace.command, rsyncCwd, hk, hr, h hk]
  · simp [jobTrace, jobUses, hk, hr, h hk]

theorem workerTrace_uses (c : Location) (params : Params) (handed : List (String × String)) :
    (workerTrace environment c params handed).uses =
      handed.flatMap (fun x => jobUses environment c params x.1 x.2) := by
  have hrun : ∀ t : Trace, (params.checksumStatus ≠ 1 → t.cwd = c) →
      (handed.foldl (fun t x => jobTrace environment c params t x.1 x.2) t).uses =
        t.uses ++ handed.flatMap (fun x => jobUses environment c params x.1 x.2) := by
    induction handed with
    | nil => simp
    | cons x handed ih =>
        intro t ht
        obtain ⟨huses, hcwd⟩ := jobTrace_spec environment params t x.1 x.2 ht
        rw [List.foldl_cons, ih _ hcwd, huses, List.flatMap_cons, List.append_assoc]
  exact (hrun ⟨c, []⟩ fun _ => rfl).trans (List.nil_append _)

/-- The scanner's and the builder's uses for one name. -/
def masterUses (environment : String → Option (List String)) (c : Location) (params : Params)
    (missing : String → Bool) (job : String) : List PathUse :=
  ⟨.source, job, c, some (params.sourceDir ++ job)⟩ ::
    builderUses environment missing params.destinationDir (resolve c params.destinationDir) job

theorem mem_masterTrace_uses {u : PathUse} :
    u ∈ (masterTrace environment c params missing jobs).uses ↔
      ∃ job ∈ jobs, u ∈ masterUses environment c params missing job := by
  simp only [masterTrace, builderTrace_eq, scannerTrace_eq, masterUses, List.mem_append,
    List.mem_flatMap, List.mem_map, List.mem_cons, List.not_mem_nil, false_or, eq_comm,
    and_or_left, exists_or]

/-- Every name is in the hand of some worker. -/
theorem exists_hand_iff (jobs : List String) (hp : 2 ≤ p) {job : String} :
    (∃ r < p - 1, job ∈ itemsOf p jobs (r + 1)) ↔ job ∈ jobs := by
  rw [← (RoundRobin.flatMap_deal_perm jobs (k := p - 1) (by omega)).mem_iff]
  simp [itemsOf]

/-- Every use is one of the master's or of a worker's for some name. -/
theorem mem_pathUses (hp : 2 ≤ p) (u : PathUse) :
    u ∈ pathUses environment c params missing p jobs ↔
    ∃ item ∈ jobs, u ∈ masterUses environment c params missing item ∨
      ∃ job ∈ Delimited.split ';' item, u ∈ jobUses environment c params item job := by
  have hworkers : (∃ r < p - 1, u ∈ (workerTrace environment c params
      (handedJobs p jobs (r + 1))).uses) ↔
      ∃ item ∈ jobs, ∃ job ∈ Delimited.split ';' item, u ∈ jobUses environment c params item job := by
    simp only [workerTrace_uses, handedJobs, List.mem_flatMap, List.mem_map,
      ← exists_hand_iff jobs hp]
    constructor
    · intro hused
      obtain ⟨r, hr, x, ⟨item, hitem, job, hjob, rfl⟩, hu⟩ := hused
      exact ⟨item, ⟨r, hr, hitem⟩, job, hjob, hu⟩
    · intro hused
      obtain ⟨item, ⟨r, hr, hitem⟩, job, hjob, hu⟩ := hused
      exact ⟨r, hr, (item, job), ⟨item, hitem, job, hjob, rfl⟩, hu⟩
  simp only [pathUses, List.mem_append, List.mem_flatMap, List.mem_range, hworkers,
    mem_masterTrace_uses, and_or_left, exists_or]

/-! ## when they agree -/

/-- Name and parameter denote the job's directory only behind a slash, and
then if the parameter itself denotes the same place. -/
theorem resolve_append_eq_iff {dir job : String} (hne : dir ≠ "") (hjob : IsName job)
    (cwd c : Location) : resolve cwd (dir ++ job) = resolve c dir ++ [job] ↔
      endsWithSlash dir ∧ resolve cwd dir = resolve c dir := by
  cases hs : endsWithSlash dir with
  | false => simpa using resolve_append_ne hne hs hjob cwd c
  | true => simp [resolve_append_name hs hjob]

/-- `hash_directory` looks at the right directory from the program's one if
the parameter ends in a slash. -/
theorem right_of_mem_hashUses (side : Side) {job : String} {u : PathUse}
    (hslash : endsWithSlash (params.dirOf side)) (hjob : IsName job)
    (hu : u ∈ hashUses c (params.dirOf side) job job side) : u.Right c params := by
  have hdir := resolve_append_name hslash hjob c
  simp only [hashUses, List.mem_cons, List.not_mem_nil, or_false] at hu
  obtain rfl | rfl := hu
  · exact ⟨_, rfl, hdir⟩
  · exact ⟨_, rfl, (resolve_dot _).trans hdir⟩

/-- A piece is only in its place if it is the whole name. -/
theorem eq_of_resolve_append {dir item job : String} (hslash : endsWithSlash dir)
    (hjob : '/' ∉ job.toList) (h : resolve c (dir ++ job) = resolve c dir ++ [item]) : job = item := by
  rw [resolve_append_component hslash hjob] at h
  exact eq_of_enter h

/-- The spellings that PyStager gets along with. -/
structure SamePlaces (c : Location) (params : Params) (missing : String → Bool) (jobs : List String) :
    Prop where
  sourceSlash : endsWithSlash params.sourceDir
  destinationSlash : endsWithSlash params.destinationDir
  inDestination : resolve (resolve c params.destinationDir) params.destinationDir =
    resolve c params.destinationDir
  inJob : params.checksumStatus = 1 → params.rsyncStatus = 1 → ∀ job ∈ jobs,
    ∀ side, resolve (resolve c params.sourceDir ++ [job]) (params.dirOf side) =
      resolve c (params.dirOf side)
  whole : params.checksumStatus = 1 ∨ params.rsyncStatus = 1 → ∀ job ∈ jobs, ';' ∉ job.toList
  created : ∀ job ∈ jobs, missing job → PlainWord job.toList
  copied : params.rsyncStatus = 1 → ∀ job ∈ jobs, PlainWord (params.sourceDir ++ job ++ "/").toList ∧
    PlainWord (params.destinationDir ++ "/" ++ job).toList

/-- Scanner and builder look at the right places. -/
theorem right_of_mem_masterUses (h : SamePlaces c params missing jobs) {job : String}
    (hjob : job ∈ jobs) (hname : IsName job) {u : PathUse}
    (hu : u ∈ masterUses environment c params missing job) : u.Right c params := by
  have hs := ne_empty_of_endsWithSlash h.sourceSlash
  have hd := ne_empty_of_endsWithSlash h.destinationSlash
  rw [masterUses, builderUses, List.mem_cons, List.mem_cons] at hu
  obtain rfl | rfl | hu := hu
  · exact ⟨_, rfl, (resolve_append_eq_iff hs hname _ _).mpr ⟨h.sourceSlash, rfl⟩⟩
  · exact ⟨_, rfl, (resolve_append_eq_iff hd hname _ _).mpr ⟨h.destinationSlash, h.inDestination⟩⟩
  · split at hu
    · next hmissing =>
      have harguments := (mkdir_arguments_iff hname.1).mpr (h.created job hjob hmissing) environment
      obtain rfl := List.mem_singleton.mp hu
      exact ⟨job, if_pos harguments, resolve_name hname _⟩
    · exact absurd hu List.not_mem_nil

/-- The working directory of the command does not matter. -/
theorem resolve_rsyncCwd (h : SamePlaces c params missing jobs) {job : String} (hjob : job ∈ jobs)
    (hname : IsName job) (hr : params.rsyncStatus = 1) (side : Side) :
    resolve (rsyncCwd c params job) (params.dirOf side) = resolve c (params.dirOf side) := by
  rw [rsyncCwd]
  split
  · next hk =>
    rw [resolve_append_name h.sourceSlash hname]
    exact h.inJob hk hr job hjob side
  · rfl

theorem right_of_mem_rsyncUses (h : SamePlaces c params missing jobs) {job : String}
    (hjob : job ∈ jobs) (hname : IsName job) (hr : params.rsyncStatus = 1) {u : PathUse}
    (hu : u ∈ rsyncUses environment c params job job) : u.Right c params := by
  have hs := ne_empty_of_endsWithSlash h.sourceSlash
  have hd := ne_empty_of_endsWithSlash h.destinationSlash
  have hcwd := resolve_rsyncCwd h hjob hname hr
  have harguments := (rsync_arguments_iff params.sourceDir params.destinationDir job).mpr
    (h.copied hr job hjob) environment
  simp only [rsyncUses, if_pos harguments, List.map_cons, List.map_nil, List.mem_cons,
    List.not_mem_nil, or_false] at hu
  obtain rfl | rfl := hu
  · refine ⟨_, rfl, ?_⟩
    have hne : params.sourceDir ++ job ≠ "" := fun he => hs (by simp_all)
    rw [resolve_slash hne, resolve_append_name h.sourceSlash hname]
    exact congrArg (· ++ [job]) (hcwd .source)
  · refine ⟨_, rfl, ?_⟩
    rw [resolve_append_slash_name hd hname]
    exact congrArg (· ++ [job]) (hcwd .destination)

/-- A worker looks at the right places. -/
theorem right_of_mem_jobUses (h : SamePlaces c params missing jobs) {item job : String}
    (hitem : item ∈ jobs) (hname : IsName item) (hjob : job ∈ Delimited.split ';' item) {u : PathUse}
    (hu : u ∈ jobUses environment c params item job) : u.Right c params := by
  have hactive : params.checksumStatus = 1 ∨ params.rsyncStatus = 1 := by
    by_contra hidle
    push Not at hidle
    simp [jobUses, hidle] at hu
  rw [Delimited.split_of_notMem (h.whole hactive item hitem), List.mem_singleton] at hjob
  subst hjob
  rw [jobUses, List.mem_append] at hu
  cases hu with
  | inl hu =>
      split at hu
      · exact right_of_mem_hashUses .source h.sourceSlash hname hu
      · exact absurd hu List.not_mem_nil
  | inr hu =>
      split at hu
      · next hr =>
        rw [List.mem_append] at hu
        cases hu with
        | inl hu => exact right_of_mem_rsyncUses h hitem hname hr hu
        | inr hu =>
            split at hu
            · exact right_of_mem_hashUses .destination h.destinationSlash hname hu
            · exact absurd hu List.not_mem_nil
      · exact absurd hu List.not_mem_nil

theorem right_of_samePlaces (h : SamePlaces c params missing jobs) (hp : 2 ≤ p)
    (hjobs : ∀ job ∈ jobs, IsName job) :
    ∀ u ∈ pathUses environment c params missing p jobs, u.Right c params := by
  intro u hu
  obtain ⟨item, hitem, hcase⟩ := (mem_pathUses hp u).mp hu
  cases hcase with
  | inl hmaster => exact right_of_mem_masterUses h hitem (hjobs item hitem) hmaster
  | inr hworker =>
      obtain ⟨job, hjob, hused⟩ := hworker
      exact right_of_mem_jobUses h hitem (hjobs item hitem) hjob hused

/-! ## what right places ask for -/

section converse

variable (hp : 2 ≤ p) (hjobs : ∀ job ∈ jobs, IsName job)
  (h : ∀ environment, ∀ u ∈ pathUses environment c params missing p jobs, u.Right c params)

include hp h

theorem masterUse_right {item : String} (hitem : item ∈ jobs) (environment : String → Option (List String))
    {u : PathUse} (hu : u ∈ masterUses environment c params missing item) : u.Right c params :=
  h environment u ((mem_pathUses hp u).mpr ⟨item, hitem, .inl hu⟩)

theorem jobUse_right {item job : String} (hitem : item ∈ jobs) (hjob : job ∈ Delimited.split ';' item)
    (environment : String → Option (List String)) {u : PathUse}
    (hu : u ∈ jobUses environment c params item job) : u.Right c params :=
  h environment u ((mem_pathUses hp u).mpr ⟨item, hitem, .inr ⟨job, hjob, hu⟩⟩)

/-- The transfer of a piece gets both operands as written. -/
theorem operands_of_right {item job : String} (hitem : item ∈ jobs)
    (hjob : job ∈ Delimited.split ';' item) (hr : params.rsyncStatus = 1) :
    (∀ environment, arguments environment
      (rsyncDirectoryStr params.sourceDir params.destinationDir job) = some ["rsync", "-r",
        params.sourceDir ++ job ++ "/", params.destinationDir ++ "/" ++ job]) ∧
    resolve (rsyncCwd c params job) (params.sourceDir ++ job ++ "/") =
      resolve c params.sourceDir ++ [item] ∧
    resolve (rsyncCwd c params job) (params.destinationDir ++ "/" ++ job) =
      resolve c params.destinationDir ++ [item] := by
  have hright : ∀ environment, ∀ u ∈ rsyncUses environment c params item job, u.Right c params :=
    fun environment u hu => jobUse_right hp h hitem hjob environment (by simp [jobUses, hr, hu])
  simp only [rsyncUses, List.map_cons, List.map_nil, List.forall_mem_cons] at hright
  have harguments : ∀ environment, arguments environment
      (rsyncDirectoryStr params.sourceDir params.destinationDir job) = some ["rsync", "-r",
        params.sourceDir ++ job ++ "/", params.destinationDir ++ "/" ++ job] := by
    intro environment
    obtain ⟨path, hpath, -⟩ := (hright environment).1
    by_contra hne
    rw [if_neg hne] at hpath
    cases hpath
  obtain ⟨⟨src, hsrc, hsource⟩, ⟨dst, hdst, hdest⟩, -⟩ := hright fun _ => none
  rw [if_pos (harguments _)] at hsrc hdst
  obtain rfl := Option.some.inj hsrc
  obtain rfl := Option.some.inj hdst
  exact ⟨harguments, hsource, hdest⟩

include hjobs

theorem slash_of_right (hs : params.sourceDir ≠ "") (hd : params.destinationDir ≠ "") {item : String}
    (hitem : item ∈ jobs) : endsWithSlash params.sourceDir ∧ endsWithSlash params.destinationDir ∧
      resolve (resolve c params.destinationDir) params.destinationDir =
        resolve c params.destinationDir := by
  have hname := hjobs item hitem
  obtain ⟨path, hpath, hscan⟩ := masterUse_right hp h hitem (fun _ => none)
    (u := ⟨.source, item, c, some (params.sourceDir ++ item)⟩) (by simp [masterUses])
  obtain rfl := Option.some.inj hpath
  obtain ⟨path, hpath, hbuild⟩ := masterUse_right hp h hitem (fun _ => none)
    (u := ⟨.destination, item, resolve c params.destinationDir,
      some (params.destinationDir ++ item)⟩) (by simp [masterUses, builderUses])
  obtain rfl := Option.some.inj hpath
  have hsource := (resolve_append_eq_iff hs hname c c).mp hscan
  have hdest := (resolve_append_eq_iff hd hname _ c).mp hbuild
  exact ⟨hsource.1, hdest⟩

/-- A name with a `;` sends some rank to another place. -/
theorem whole_of_right (hslash : endsWithSlash params.sourceDir)
    (hactive : params.checksumStatus = 1 ∨ params.rsyncStatus = 1) {item : String}
    (hitem : item ∈ jobs) : ';' ∉ item.toList := by
  have hname := hjobs item hitem
  obtain ⟨job, rest, hsplit⟩ := List.exists_cons_of_ne_nil (l := Delimited.split ';' item)
    fun hnil => by
      have hlen := Delimited.length_split ';' item
      simp [hnil] at hlen
  have hjob : job ∈ Delimited.split ';' item := by simp [hsplit]
  have hnosep : ';' ∉ job.toList := Delimited.notMem_of_mem_split hjob
  have hnoslash : '/' ∉ job.toList := fun hmem =>
    hname.2.2.2.1 (Delimited.mem_of_mem_split hjob hmem)
  suffices hwhole : resolve c (params.sourceDir ++ job) = resolve c params.sourceDir ++ [item] by
    rwa [← eq_of_resolve_append hslash hnoslash hwhole]
  by_cases hk : params.checksumStatus = 1
  · obtain ⟨path, hpath, hplace⟩ := jobUse_right hp h hitem hjob (fun _ => none)
      (u := ⟨.source, item, c, some (params.sourceDir ++ job)⟩) (by simp [jobUses, hashUses, hk])
    obtain rfl := Option.some.inj hpath
    exact hplace
  · obtain ⟨-, hplace, -⟩ := operands_of_right hp h hitem hjob (hactive.resolve_left hk)
    have hne : params.sourceDir ++ job ≠ "" := fun he =>
      ne_empty_of_endsWithSlash hslash (by simp_all)
    rwa [resolve_slash hne, rsyncCwd, if_neg hk] at hplace

theorem samePlaces_of_right (hs : params.sourceDir ≠ "") (hd : params.destinationDir ≠ "")
    (hne : jobs ≠ []) : SamePlaces c params missing jobs := by
  obtain ⟨first, hfirst⟩ := List.exists_mem_of_ne_nil jobs hne
  obtain ⟨hslash, hdslash, hin⟩ := slash_of_right hp hjobs h hs hd hfirst
  have hwhole : params.checksumStatus = 1 ∨ params.rsyncStatus = 1 → ∀ job ∈ jobs, ';' ∉ job.toList :=
    fun hactive job hjob => whole_of_right hp hjobs h hslash hactive hjob
  have hself : params.checksumStatus = 1 ∨ params.rsyncStatus = 1 → ∀ job ∈ jobs,
      job ∈ Delimited.split ';' job := fun hactive job hjob => by
    rw [Delimited.split_of_notMem (hwhole hactive job hjob)]
    exact List.mem_singleton_self job
  refine ⟨hslash, hdslash, hin, fun hk hr job hjob side => ?_, hwhole, fun job hjob hmissing => ?_,
    fun hr job hjob => ?_⟩
  · have hname := hjobs job hjob
    have hcwd : rsyncCwd c params job = resolve c params.sourceDir ++ [job] := by
      rw [rsyncCwd, if_pos hk, resolve_append_name hslash hname]
    obtain ⟨-, hsource, hdest⟩ := operands_of_right hp h hjob (hself (.inr hr) job hjob) hr
    cases side with
    | source =>
        have hne : params.sourceDir ++ job ≠ "" := fun he => hs (by simp_all)
        rw [resolve_slash hne, resolve_append_name hslash hname, hcwd] at hsource
        exact (List.append_left_inj _).mp hsource
    | destination =>
        rw [resolve_append_slash_name hd hname, hcwd] at hdest
        exact (List.append_left_inj _).mp hdest
  · rw [← mkdir_arguments_iff (hjobs job hjob).1]
    intro environment
    obtain ⟨path, hpath, -⟩ := masterUse_right hp h hjob environment
      (u := mkdirUse environment (resolve c params.destinationDir) job)
      (by simp [masterUses, builderUses, hmissing])
    by_contra hother
    rw [mkdirUse, if_neg hother] at hpath
    cases hpath
  · exact (rsync_arguments_iff _ _ _).mp
      (operands_of_right hp h hjob (hself (.inr hr) job hjob) hr).1

end converse

/-- Absolute parameters of free characters only need their slashes, and
plain names. -/
theorem samePlaces_of_absolute (hs : isAbsolute params.sourceDir)
    (hd : isAbsolute params.destinationDir) (hslash : endsWithSlash params.sourceDir)
    (hdslash : endsWithSlash params.destinationDir) (hsource : FreeOfMeta params.sourceDir)
    (hdest : FreeOfMeta params.destinationDir) (hplain : ∀ job ∈ jobs, PlainWord job.toList) :
    SamePlaces c params missing jobs where
  sourceSlash := hslash
  destinationSlash := hdslash
  inDestination := resolve_of_isAbsolute hd _ _
  inJob _ _ _ _ side := by
    cases side with
    | source => exact resolve_of_isAbsolute hs _ _
    | destination => exact resolve_of_isAbsolute hd _ _
  whole _ job hjob := notMem_of_plainWord (hplain job hjob)
  created job hjob _ := hplain job hjob
  copied _ job hjob := plainWord_operands hsource hdest (hplain job hjob)

/-- A destination without a trailing slash. -/
def dockerParams : Params := ⟨"/app/Source/", "/app/Receiver", 1, 1, .directory⟩

def slashedParams : Params := { dockerParams with destinationDir := "/app/Receiver/" }

end ContainerHackathon.PyStager
