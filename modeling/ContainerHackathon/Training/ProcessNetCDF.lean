import ContainerHackathon.Lib.FileTree
import ContainerHackathon.Lib.Python

/-!
# Training.ProcessNetCDF

`process_netCDF.py`: the files of the data directory are listed, split into
training, validation and test recordings, and every split is stacked into
one data set with a source label for each image.

The bounds of the splits come from two independent roundings and are kept
in order by them (`bounds_ordered`).  The end of the test recordings is the
index of the last file and is used as the end of a slice, so that file is
in no split as soon as there are three files
(`recordings_partition_iff`).
-/

namespace ContainerHackathon.Training

open FileTree

/-! ## the splits -/

/-- `list(os.walk(DATA_DIR, topdown=False))[-1][-1]`, sorted: the bottom-up
walk comes to the data directory itself last. -/
def imageListOf {β : Type*} (dataDir : Dir String β) : List String :=
  dataDir.filenames.mergeSort (· ≤ ·)

/-- `partition = [0.8, 0.05, 0.15]`. -/
def partition : Fin 3 → ℚ := ![4 / 5, 1 / 20, 3 / 20]

section indices

variable (imageList : List String)

def trainBegin : Int := 0

def trainEnd : Int := Python.round (partition 0 * imageList.length) - 1

def valBegin : Int := trainEnd imageList + 1

def valEnd : Int := trainEnd imageList + Python.round (partition 1 * imageList.length)

def testBegin : Int := valEnd imageList + 1

def testEnd : Int := imageList.length - 1

def trainRecordings : List String := Python.slice imageList trainBegin (valBegin imageList)

def valRecordings : List String :=
  Python.slice imageList (valBegin imageList) (testBegin imageList)

def testRecordings : List String :=
  Python.slice imageList (testBegin imageList) (testEnd imageList)

end indices

inductive Split
  | train
  | test
  | val
  deriving DecidableEq, Repr

/-- `splits`. -/
def splits (imageList : List String) : Split → List String
  | .train => trainRecordings imageList
  | .test => testRecordings imageList
  | .val => valRecordings imageList

/-! ## the data sets -/

/-- A pair of dumps `X_<split>.hkl` and `sources_<split>.hkl`: the images,
and for each image the source it comes from. -/
structure DataSet (ι σ : Type*) where
  X : List ι
  sources : List σ
  length_sources : sources.length = X.length

/-- `process_data` for one split; `euStack` reads a file and stacks its
fields, or raises. -/
def processData {ι : Type*} (euStack : String → Option ι) (dataDir : String)
    (recordings : List String) : Option (DataSet ι String) :=
  match h : recordings.mapM (fun imFile => euStack (dataDir ++ "/" ++ imFile)) with
  | none => none
  | some X => some
      { X := X
        sources := List.replicate recordings.length dataDir
        length_sources := by rw [List.length_replicate, Python.length_of_mapM h] }

/-! ## the split is almost a partition -/

variable {imageList : List String}

/-- The roundings, as bounds on integers: `a` training files and `v` files
for validation. -/
theorem exists_rounded (imageList : List String) : ∃ a v : Int,
    valBegin imageList = a ∧ testBegin imageList = a + v ∧
      (8 * imageList.length - 5 ≤ 10 * a ∧ 10 * a ≤ 8 * imageList.length + 5) ∧
      (imageList.length - 10 ≤ 20 * v ∧ 20 * v ≤ imageList.length + 10) := by
  have ha := Python.round_bounds (partition 0 * imageList.length)
  have hv := Python.round_bounds (partition 1 * imageList.length)
  have hp0 : partition 0 = 4 / 5 := rfl
  have hp1 : partition 1 = 1 / 20 := rfl
  rw [hp0] at ha
  rw [hp1] at hv
  refine ⟨_, Python.round (partition 1 * imageList.length), rfl, ?_, ?_, ?_⟩
  · simp only [testBegin, valEnd, valBegin]
    omega
  · have hval : valBegin imageList = Python.round (4 / 5 * imageList.length) := by
      simp only [valBegin, trainEnd, hp0]
      omega
    rw [hval]
    constructor <;> (qify; linarith [ha.1, ha.2])
  · rw [hp1]
    constructor <;> (qify; linarith [hv.1, hv.2])

/-- **The bounds are in order** for every number of files. -/
theorem bounds_ordered (hne : imageList ≠ []) :
    0 ≤ valBegin imageList ∧ valBegin imageList ≤ testBegin imageList ∧
      testBegin imageList ≤ imageList.length := by
  have hpos : 0 < imageList.length := List.length_pos_iff.mpr hne
  obtain ⟨a, v, hval, htest, ha, hv⟩ := exists_rounded imageList
  omega

/-- The three slices leave no gap: together they are what lies before the
end of the last one. -/
theorem recordings_append (hne : imageList ≠ []) :
    trainRecordings imageList ++ valRecordings imageList ++ testRecordings imageList =
      imageList.take (max (testBegin imageList).toNat (imageList.length - 1)) := by
  have hpos : 0 < imageList.length := List.length_pos_iff.mpr hne
  obtain ⟨hval, htest, hlen⟩ := bounds_ordered hne
  obtain ⟨a, ha⟩ := Int.eq_ofNat_of_zero_le hval
  obtain ⟨b, hb⟩ := Int.eq_ofNat_of_zero_le (hval.trans htest)
  have hend : testEnd imageList = (imageList.length - 1 : Nat) := by
    rw [testEnd]
    omega
  rw [trainRecordings, valRecordings, testRecordings, hend, ha, hb, trainBegin, Int.toNat_natCast]
  have hfront : Python.slice imageList 0 (a : Int) ++ Python.slice imageList a (b : Int) =
      Python.slice imageList 0 (b : Int) :=
    Python.slice_append_slice imageList (Nat.zero_le a) (by omega)
  rw [hfront]
  by_cases hle : b ≤ imageList.length - 1
  · rw [Nat.max_eq_right hle, ← Python.slice_zero]
    exact Python.slice_append_slice imageList (Nat.zero_le b) hle
  · have hempty : Python.slice imageList b ((imageList.length - 1 : Nat) : Int) = [] := by
      rw [Python.slice_natCast]
      exact List.drop_eq_nil_of_le (by simp; omega)
    rw [hempty, List.append_nil, Python.slice_zero, Nat.max_eq_left (by omega)]

/-- With three files or more, the last file is in no split. -/
theorem recordings_eq_dropLast (hlen : 3 ≤ imageList.length) :
    trainRecordings imageList ++ valRecordings imageList ++ testRecordings imageList =
      imageList.dropLast := by
  obtain ⟨a, v, hval, htest, ha, hv⟩ := exists_rounded imageList
  have hne : imageList ≠ [] := List.ne_nil_of_length_pos (by omega)
  rw [recordings_append hne, List.dropLast_eq_take, Nat.max_eq_right (by omega)]

/-- **The split** keeps its bounds in order for every number of files, and
is a partition of the files exactly if there are at most two. -/
theorem recordings_partition_iff (hne : imageList ≠ []) :
    ((0 ≤ valBegin imageList ∧ valBegin imageList ≤ testBegin imageList ∧
        testBegin imageList ≤ imageList.length) ∧
      trainRecordings imageList ++ valRecordings imageList ++ testRecordings imageList =
        imageList) ↔ imageList.length ≤ 2 := by
  have hpos : 0 < imageList.length := List.length_pos_iff.mpr hne
  constructor
  · intro h
    by_contra hlen
    have hlast := congrArg List.length ((recordings_eq_dropLast (by omega)).symm.trans h.2)
    rw [List.length_dropLast] at hlast
    omega
  · intro hlen
    refine ⟨bounds_ordered hne, ?_⟩
    obtain ⟨a, v, hval, htest, ha, hv⟩ := exists_rounded imageList
    have htotal : a + v = imageList.length := by
      obtain hone | htwo : imageList.length = 1 ∨ imageList.length = 2 := by omega
      · rw [hone] at ha hv ⊢
        omega
      · rw [htwo] at ha hv ⊢
        omega
    rw [recordings_append hne, htest, htotal]
    exact List.take_of_length_le (by simp)

theorem recordings_partition_iff_pair :
    trainRecordings ["a.nc", "b.nc"] ++ valRecordings ["a.nc", "b.nc"] ++
      testRecordings ["a.nc", "b.nc"] = ["a.nc", "b.nc"] :=
  ((recordings_partition_iff (by decide)).mpr (by decide)).2

/-- Three files: two for training, none for validation or test. -/
theorem lastFile_dropped :
    trainRecordings ["a.nc", "b.nc", "c.nc"] ++ valRecordings ["a.nc", "b.nc", "c.nc"] ++
      testRecordings ["a.nc", "b.nc", "c.nc"] ≠ ["a.nc", "b.nc", "c.nc"] := by
  rw [recordings_eq_dropLast (by decide)]
  decide

/-! ## the data sets of the splits -/

theorem imageListOf_perm {β : Type*} (dataDir : Dir String β) :
    (imageListOf dataDir).Perm dataDir.filenames := List.mergeSort_perm _ _

/-- The splits of a data directory with three files or more hold its files,
each once, but for the one that sorts last. -/
theorem splits_perm {β : Type*} {dataDir : Dir String β}
    (hlen : 3 ≤ dataDir.filenames.length) : ∃ last, (∀ f ∈ dataDir.filenames, f ≤ last) ∧
      (splits (imageListOf dataDir) .train ++ splits (imageListOf dataDir) .val ++
        splits (imageListOf dataDir) .test ++ [last]).Perm dataDir.filenames := by
  have hperm := imageListOf_perm dataDir
  rw [← hperm.length_eq] at hlen
  have hne : imageListOf dataDir ≠ [] := List.ne_nil_of_length_pos (by omega)
  have hsplits : splits (imageListOf dataDir) .train ++ splits (imageListOf dataDir) .val ++
      splits (imageListOf dataDir) .test = (imageListOf dataDir).dropLast :=
    recordings_eq_dropLast hlen
  have hsorted : (imageListOf dataDir).Pairwise (· ≤ ·) :=
    List.pairwise_mergeSort' (· ≤ ·) dataDir.filenames
  refine ⟨(imageListOf dataDir).getLast hne, fun f hf => ?_, ?_⟩
  · have hmem := hperm.mem_iff.mpr hf
    rw [← List.dropLast_append_getLast hne] at hsorted hmem
    cases List.mem_append.mp hmem with
    | inl hfront => exact (List.pairwise_append.mp hsorted).2.2 f hfront _ (List.mem_singleton_self _)
    | inr hlast => exact (List.mem_singleton.mp hlast).le
  · rw [hsplits, List.dropLast_append_getLast]
    exact hperm

/-- A data set has an image for every recording of its split, and the data
directory as the source of all of them. -/
theorem processData_spec {ι : Type*} {euStack : String → Option ι} {dataDir : String}
    {recordings : List String} {data : DataSet ι String}
    (h : processData euStack dataDir recordings = some data) :
    data.X.length = recordings.length ∧ data.sources = List.replicate data.X.length dataDir := by
  unfold processData at h
  split at h
  · cases h
  · next X hX =>
    obtain rfl := Option.some.inj h
    have hlen := Python.length_of_mapM hX
    exact ⟨hlen, by simp only [hlen]⟩

end ContainerHackathon.Training
