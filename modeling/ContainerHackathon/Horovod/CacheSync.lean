import ContainerHackathon.Horovod.Agreement
import ContainerHackathon.Lib.BitWords

/-!
# Horovod.CacheSync

`CacheCoordinator::sync` as it is done: the cache hits of a rank are bits of
64-bit words, behind three status bits, and all ranks combine their words.  A
status bit is set when there is nothing to report, so that a bitwise and says
whether any rank has something to report.

The positions are read back as unsigned numbers, three too large for the cache
bits; so the status bits turn up as the largest numbers there are.
-/

namespace ContainerHackathon.Horovod

open Fallible BitWords

variable {n : Nat}

inductive StatusBit
  | shouldShutDown
  | uncachedInQueue
  | invalidInQueue

def StatusBit.index : StatusBit → Nat
  | .shouldShutDown => 0
  | .uncachedInQueue => 1
  | .invalidInQueue => 2

/-- `NUM_STATUS_BITS`. -/
def numStatusBits : Nat := 3

/-- The number of words. -/
def wordCount (numActiveBits : Nat) : Nat := (numActiveBits + numStatusBits + 63) / 64

/-- The conversion of an `int` to `uint32_t`. -/
def toUInt32 (i : Int) : Nat := (i % 4294967296).toNat

/-- What a rank has to tell, and to be told. -/
structure Report where
  coordinator : CacheCoordinator
  shouldShutDown : Bool

def Report.invalidInQueue (c : Report) : Bool := decide (c.coordinator.invalidBits ≠ ∅)

/-- The status bits that are set: those of the flags that are not. -/
def Report.statusPositions (c : Report) : List Nat :=
  (if c.shouldShutDown then [] else [StatusBit.shouldShutDown.index]) ++
  (if c.coordinator.uncachedInQueue then [] else [StatusBit.uncachedInQueue.index]) ++
  (if c.invalidInQueue then [] else [StatusBit.invalidInQueue.index])

/-- The bits of the cache hits that are not invalid. -/
def Report.hitPositions (c : Report) : List Nat :=
  ((c.coordinator.cacheHits \ c.coordinator.invalidBits).sort (· ≤ ·)).map (· + numStatusBits)

/-- `bitvector_`, with the bits at some positions set. -/
def writeBits (numActiveBits : Nat) (positions : List Nat) : Except Failure Words :=
  (setAll (List.replicate (wordCount numActiveBits) 0) positions).elim (.error .undefined) .ok

/-- The bits that are set. -/
def readBits (ws : Words) : Except Failure (List Nat) := (scan ws).elim (.error .undefined) .ok

/-- The set of cache hits as it is read back, with the status bits in it. -/
def readHits (ws : Words) : Except Failure (Finset Nat) := do
  let positions ← readBits ws
  return (positions.map fun p : Nat => toUInt32 (p - numStatusBits)).toFinset

/-- Where a status bit turns up in this set. -/
def StatusBit.shifted (b : StatusBit) : Nat := toUInt32 (b.index - numStatusBits)

/-- A flag of this rank, or of any other. -/
def flagged (hits : Finset Nat) (b : StatusBit) (own : Bool) : Bool :=
  own || decide (b.shifted ∉ hits)

/-- What a rank knows afterwards, from what was read back. -/
def Report.readBack (c : Report) (hits : Finset Nat) (invalid : List Nat) : Report where
  coordinator := {
    cacheHits := hits \ {StatusBit.shouldShutDown.shifted, StatusBit.uncachedInQueue.shifted,
      StatusBit.invalidInQueue.shifted}
    invalidBits :=
      if flagged hits .invalidInQueue c.invalidInQueue then invalid.toFinset
      else c.coordinator.invalidBits
    uncachedInQueue := flagged hits .uncachedInQueue c.coordinator.uncachedInQueue }
  shouldShutDown := flagged hits .shouldShutDown c.shouldShutDown

/-- `sync`, of all ranks. -/
def syncWords (numActiveBits : Nat) (reports : Fin (n + 1) → Report) :
    Except Failure (Fin (n + 1) → Report) := do
  let buffers ← sequence fun r =>
    writeBits numActiveBits ((reports r).statusPositions ++ (reports r).hitPositions)
  let hits ← readHits (reduce (· &&& ·) (wordCount numActiveBits) buffers)
  let invalidBuffers ← sequence fun r =>
    writeBits numActiveBits ((reports r).coordinator.invalidBits.sort (· ≤ ·))
  let invalid ← readBits (reduce (· ||| ·) (wordCount numActiveBits) invalidBuffers)
  return fun r => (reports r).readBack hits invalid

/-! ## writing and reading -/

variable {numActiveBits : Nat} {reports : Fin (n + 1) → Report}

/-- The bits that a rank reports are those of its cache. -/
def Report.Active (numActiveBits : Nat) (c : Report) : Prop :=
  (∀ b ∈ c.coordinator.cacheHits, b < numActiveBits) ∧
    ∀ b ∈ c.coordinator.invalidBits, b < numActiveBits

theorem exists_writeBits {positions : List Nat}
    (h : ∀ p ∈ positions, p < numActiveBits + numStatusBits) :
    ∃ ws, writeBits numActiveBits positions = .ok ws ∧ ∀ j, get ws j = decide (j ∈ positions) := by
  have hlt : ∀ p ∈ positions,
      p < 64 * (List.replicate (wordCount numActiveBits) (0 : BitVec 64)).length := fun p hp => by
    rw [List.length_replicate, wordCount]
    have := h p hp
    omega
  obtain ⟨ws, hset, -, hget⟩ := exists_setAll _ hlt
  refine ⟨ws, by rw [writeBits, hset]; rfl, fun j => ?_⟩
  rw [hget, get_zero, Bool.false_or]

theorem exists_readBits (ws : Words) : ∃ is, readBits ws = .ok is ∧ ∀ j, j ∈ is ↔ get ws j = true := by
  obtain ⟨is, hscan, hmem⟩ := exists_scan ws
  exact ⟨is, by rw [readBits, hscan]; rfl, hmem⟩

/-- Every rank writes its positions; what is read back depends on how the words
are combined. -/
theorem exists_reduce (numActiveBits : Nat) (op : BitVec 64 → BitVec 64 → BitVec 64) (Q : (Fin (n + 1) → Prop) → Prop)
    (hop : ∀ (count : Nat) (buffers : Fin (n + 1) → Words) (j : Nat), j < 64 * count →
      (get (reduce op count buffers) j = true ↔ Q fun r => get (buffers r) j = true))
    (hnone : ∀ P, (∀ r, ¬ P r) → ¬ Q P) (positions : Fin (n + 1) → List Nat)
    (h : ∀ r, ∀ p ∈ positions r, p < numActiveBits + numStatusBits) : ∃ buffers is,
    (sequence fun r => writeBits numActiveBits (positions r)) = .ok buffers ∧
    readBits (reduce op (wordCount numActiveBits) buffers) = .ok is ∧
    ∀ p, p ∈ is ↔ Q fun r => p ∈ positions r := by
  choose buffers hwrite hget using fun r => exists_writeBits (h r)
  obtain ⟨is, hread, hmem⟩ := exists_readBits (reduce op (wordCount numActiveBits) buffers)
  refine ⟨buffers, is, sequence_eq_ok.mpr hwrite, hread, fun p => ?_⟩
  rw [hmem]
  by_cases hp : p < 64 * wordCount numActiveBits
  · rw [hop _ _ _ hp]
    simp only [hget, decide_eq_true_eq]
  · rw [get_of_length_le (by rw [length_reduce]; omega)]
    refine iff_of_false (by simp) (hnone _ fun r hr => hp ?_)
    have := h r p hr
    rw [wordCount]
    omega

/-! ## positions -/

theorem mem_statusPositions {c : Report} {p : Nat} : p ∈ c.statusPositions ↔
    (p = 0 ∧ c.shouldShutDown = false) ∨ (p = 1 ∧ c.coordinator.uncachedInQueue = false) ∨
      (p = 2 ∧ c.invalidInQueue = false) := by
  rw [Report.statusPositions]
  cases c.shouldShutDown <;> cases c.coordinator.uncachedInQueue <;> cases c.invalidInQueue <;>
    simp [StatusBit.index]

theorem mem_hitPositions {c : Report} {p : Nat} : p ∈ c.hitPositions ↔
    ∃ b, p = b + 3 ∧ b ∈ c.coordinator.cacheHits ∧ b ∉ c.coordinator.invalidBits := by
  simp only [Report.hitPositions, List.mem_map, Finset.mem_sort, Finset.mem_sdiff, numStatusBits]
  exact ⟨fun ⟨b, hb, hp⟩ => ⟨b, hp.symm, hb⟩, fun ⟨b, hp, hb⟩ => ⟨b, hb, hp.symm⟩⟩

/-- The status bits and the cache bits are told apart by their numbers. -/
theorem toUInt32_eq {p v : Nat} (hp : p < 4294967296) : toUInt32 ((p : Int) - numStatusBits) = v ↔
    p = v + 3 ∧ v < 4294967293 ∨ v = p + 4294967293 ∧ p < 3 := by
  simp only [toUInt32, numStatusBits, Nat.cast_ofNat]
  omega

theorem shifted_eq (b : StatusBit) : b.shifted = b.index + 4294967293 := by
  cases b <;> rfl

theorem exists_index {p : Nat} (hp : p < 3) : ∃ b : StatusBit, b.index = p := by
  obtain rfl | rfl | rfl : p = 0 ∨ p = 1 ∨ p = 2 := by omega
  · exact ⟨.shouldShutDown, rfl⟩
  · exact ⟨.uncachedInQueue, rfl⟩
  · exact ⟨.invalidInQueue, rfl⟩

theorem lt_of_mem_positions {c : Report} (h : c.Active numActiveBits) {p : Nat}
    (hp : p ∈ c.statusPositions ++ c.hitPositions) : p < numActiveBits + numStatusBits := by
  rw [List.mem_append, mem_statusPositions, mem_hitPositions] at hp
  rw [numStatusBits]
  rcases hp with (⟨rfl, -⟩ | ⟨rfl, -⟩ | ⟨rfl, -⟩) | ⟨b, rfl, hb, -⟩
  · omega
  · omega
  · omega
  · have := h.1 b hb
    omega

theorem mem_positions_status {c : Report} (b : StatusBit) :
    b.index ∈ c.statusPositions ++ c.hitPositions ↔ b.index ∈ c.statusPositions := by
  rw [List.mem_append, mem_hitPositions, or_iff_left]
  rintro ⟨v, hv, -⟩
  cases b <;> simp only [StatusBit.index] at hv <;> omega

theorem mem_positions_hit {c : Report} {v : Nat} :
    v + 3 ∈ c.statusPositions ++ c.hitPositions ↔
      v ∈ c.coordinator.cacheHits ∧ v ∉ c.coordinator.invalidBits := by
  rw [List.mem_append, mem_statusPositions, mem_hitPositions]
  constructor
  · rintro ((⟨h, -⟩ | ⟨h, -⟩ | ⟨h, -⟩) | ⟨b, hb, hmem⟩)
    · omega
    · omega
    · omega
    · obtain rfl : v = b := by omega
      exact hmem
  · exact fun h => .inr ⟨v, rfl, h⟩

/-! ## all ranks -/

theorem cacheCoordinator_ext {c d : CacheCoordinator} (hhits : c.cacheHits = d.cacheHits)
    (hinvalid : c.invalidBits = d.invalidBits) (huncached : c.uncachedInQueue = d.uncachedInQueue) :
    c = d := by
  cases c
  cases d
  simp_all

/-- A flag is set on all ranks if it is set on any. -/
theorem flag_eq {hits : Finset Nat} {b : StatusBit} {f : Fin (n + 1) → Bool}
    (h : b.shifted ∈ hits ↔ ∀ r, f r = false) (r : Fin (n + 1)) :
    flagged hits b (f r) = decide (∃ q, f q = true) := by
  rw [flagged, Bool.eq_iff_iff, Bool.or_eq_true, decide_eq_true_eq, decide_eq_true_eq, h]
  push Not
  simp only [ne_eq, Bool.not_eq_false]
  exact ⟨fun hor => hor.elim (fun hr => ⟨r, hr⟩) id, .inr⟩

/-- **The words carry the sets**: every rank reads back the hits that all ranks
have and that are invalid on none, the bits that are invalid on any, and the
flags that are set on any. -/
theorem syncWords_eq (hsize : numActiveBits + numStatusBits < 4294967296)
    (h : ∀ r, (reports r).Active numActiveBits) : syncWords numActiveBits reports =
      .ok fun _ => ⟨sync fun r => (reports r).coordinator,
        decide (∃ r, (reports r).shouldShutDown = true)⟩ := by
  obtain ⟨buffers, is, hwrite, hread, hmem⟩ := exists_reduce numActiveBits (· &&& ·) (fun P => ∀ r, P r)
    (fun count buffers j hj => get_reduce_and hj) (fun P hnone hall => hnone 0 (hall 0))
    (fun r => (reports r).statusPositions ++ (reports r).hitPositions)
    fun r p hp => lt_of_mem_positions (h r) hp
  obtain ⟨buffers', is', hwrite', hread', hmem'⟩ := exists_reduce numActiveBits (· ||| ·) (fun P => ∃ r, P r)
    (fun count buffers j hj => get_reduce_or hj) (fun P hnone ⟨r, hr⟩ => hnone r hr)
    (fun r => (reports r).coordinator.invalidBits.sort (· ≤ ·)) fun r p hp => by
      have := (h r).2 p ((Finset.mem_sort _).mp hp)
      omega
  -- what is read back: cache bits, and the status bits above all of them
  have hhits : ∀ v, v ∈ (is.map fun p : Nat => toUInt32 (p - numStatusBits)).toFinset ↔
      (v < 4294967293 ∧ ∀ r, v ∈ (reports r).coordinator.cacheHits ∧
        v ∉ (reports r).coordinator.invalidBits) ∨
      ∃ b : StatusBit, v = b.shifted ∧ ∀ r, b.index ∈ (reports r).statusPositions := fun v => by
    rw [List.mem_toFinset, List.mem_map]
    constructor
    · rintro ⟨p, hp, hv⟩
      rw [hmem] at hp
      have hlt := lt_of_mem_positions (h 0) (hp 0)
      rcases (toUInt32_eq (by omega)).mp hv with ⟨rfl, hsmall⟩ | ⟨rfl, hstatus⟩
      · exact .inl ⟨hsmall, fun r => mem_positions_hit.mp (hp r)⟩
      · obtain ⟨b, rfl⟩ := exists_index hstatus
        exact .inr ⟨b, (shifted_eq b).symm, fun r => (mem_positions_status b).mp (hp r)⟩
    · rintro (⟨hsmall, hall⟩ | ⟨b, rfl, hall⟩)
      · exact ⟨v + 3, (hmem _).mpr fun r => mem_positions_hit.mpr (hall r),
          (toUInt32_eq (by omega)).mpr (.inl ⟨rfl, hsmall⟩)⟩
      · exact ⟨b.index, (hmem _).mpr fun r => (mem_positions_status b).mpr (hall r), rfl⟩
  have hstatus : ∀ b : StatusBit,
      b.shifted ∈ (is.map fun p : Nat => toUInt32 (p - numStatusBits)).toFinset ↔
        ∀ r, b.index ∈ (reports r).statusPositions := fun b => by
    rw [hhits, shifted_eq]
    constructor
    · rintro (⟨hlt, -⟩ | ⟨b', hb', hall⟩)
      · omega
      · rw [shifted_eq] at hb'
        rwa [show b.index = b'.index by omega]
    · exact fun hall => .inr ⟨b, (shifted_eq b).symm, hall⟩
  rw [syncWords, hwrite]
  simp only [ok_bind, readHits, hread, hwrite', hread']
  refine congrArg Except.ok (funext fun r => ?_)
  have hshutDown := flag_eq (f := fun r => (reports r).shouldShutDown)
    ((hstatus .shouldShutDown).trans (forall_congr' fun r => by
      simp [mem_statusPositions, StatusBit.index])) r
  have huncached := flag_eq (f := fun r => (reports r).coordinator.uncachedInQueue)
    ((hstatus .uncachedInQueue).trans (forall_congr' fun r => by
      simp [mem_statusPositions, StatusBit.index])) r
  have hinvalid := flag_eq (f := fun r => (reports r).invalidInQueue)
    ((hstatus .invalidInQueue).trans (forall_congr' fun r => by
      simp [mem_statusPositions, StatusBit.index])) r
  rw [Report.readBack, hshutDown, huncached, hinvalid]
  congr 1
  refine cacheCoordinator_ext ?_ ?_ ?_
  · ext v
    rw [mem_cacheHits_sync, Finset.mem_sdiff, hhits]
    constructor
    · rintro ⟨⟨-, hall⟩ | ⟨b, rfl, -⟩, hnot⟩
      · exact hall
      · exact absurd (by cases b <;> simp) hnot
    · intro hall
      have hlt := (h 0).1 v (hall 0).1
      rw [numStatusBits] at hsize
      refine ⟨.inl ⟨by omega, hall⟩, ?_⟩
      simp only [Finset.mem_insert, Finset.mem_singleton, shifted_eq, StatusBit.index]
      omega
  · ext b
    rw [mem_invalidBits_sync]
    split
    · rw [List.mem_toFinset, hmem']
      simp only [Finset.mem_sort]
    · next hnone =>
      have hempty : ∀ q, (reports q).coordinator.invalidBits = ∅ := fun q => by
        by_contra hne
        exact hnone (decide_eq_true ⟨q, decide_eq_true hne⟩)
      simp [hempty]
  · rfl

/-! ## the ranks -/

variable {cfg : Config} {s : State n}

/-- All ranks have as many bits as they have cached responses. -/
theorem Inv.numActiveBits_eq (hs : Inv cfg s) (r : Fin (n + 1)) :
    (s.workers r).cache.numActiveBits = (s.workers r).cache.cache.length := by
  rw [ResponseCache.numActiveBits, (hs.worker r).wf.compact (hs.worker r).fresh, List.length_map,
    ResponseCache.namesByAge, List.length_reverse, List.length_map]

theorem lt_numActiveBits {c : ResponseCache} (hc : c.WF) {x : String} {b : Nat}
    (h : c.tensorNameToBit x = some b) : b < c.numActiveBits :=
  (List.getElem?_eq_some_iff.mp ((hc.bits x b).mp h)).1

/-- **The ranks can coordinate by words** in every state that they reach: all
have words of the same length, and what each of them reads back are the sets
that `ComputeResponseList` goes on with. -/
theorem syncWords_of_reachable (h : Transition.Reachable (system cfg n) s)
    (hcapacity : cfg.capacity + numStatusBits < 4294967296)
    (stalled : Fin (n + 1) → Request → Bool) (shouldShutDown : Fin (n + 1) → Bool) :
    ∃ coordinators : Fin (n + 1) → CacheCoordinator, (∀ r,
        recordMessages (s.workers r).cache (stalled r) (s.workers r).messages =
          .ok (coordinators r) ∧
        (s.workers r).cache.numActiveBits = (s.workers 0).cache.numActiveBits) ∧
      syncWords (s.workers 0).cache.numActiveBits
        (fun r => ⟨coordinators r, shouldShutDown r⟩) =
          .ok fun _ => ⟨sync coordinators, decide (∃ r, shouldShutDown r = true)⟩ := by
  have hs := inv_of_reachable h
  choose coordinators hrecord hhits hinvalid huncached using fun r =>
    ResponseCache.exists_recordMessages (hs.worker r).wf (stalled r) (s.workers r).messages
  have hsame : ∀ r, (s.workers r).cache.numActiveBits = (s.workers 0).cache.numActiveBits := fun r => by
    have hlength := congrArg List.length (hs.coherent r)
    rw [List.length_map, List.length_map] at hlength
    rw [hs.numActiveBits_eq, hs.numActiveBits_eq, hlength]
  refine ⟨coordinators, fun r => ⟨hrecord r, hsame r⟩, syncWords_eq ?_ fun r => ⟨fun b hb => ?_,
    fun b hb => ?_⟩⟩
  · rw [hs.numActiveBits_eq]
    have := (hs.worker 0).bounded
    omega
  · obtain ⟨m, -, -, hbit⟩ := (hhits r b).mp hb
    rw [← hsame r]
    exact lt_numActiveBits (hs.worker r).wf hbit
  · obtain ⟨m, -, -, hbit⟩ := (hinvalid r b).mp hb
    rw [← hsame r]
    exact lt_numActiveBits (hs.worker r).wf hbit

/-- Two bits for cached responses, of which the ranks have a hit in common;
rank one shuts down. -/
theorem syncWords_twoCycles : ∃ coordinators : Fin 2 → CacheCoordinator,
    ((stateAfter twoCycles).workers 0).cache.numActiveBits = 2 ∧
    (∀ r, 0 ∈ (coordinators r).cacheHits) ∧
    (∀ r, recordMessages ((stateAfter twoCycles).workers r).cache
        ((fun _ _ => false : Fin 2 → Request → Bool) r)
        ((stateAfter twoCycles).workers r).messages = .ok (coordinators r) ∧
      ((stateAfter twoCycles).workers r).cache.numActiveBits =
        ((stateAfter twoCycles).workers 0).cache.numActiveBits) ∧
    syncWords ((stateAfter twoCycles).workers 0).cache.numActiveBits
      (fun r => ⟨coordinators r, (fun r => r = 1 : Fin 2 → Bool) r⟩) =
        .ok fun _ =>
          ⟨sync coordinators, decide (∃ r : Fin 2, (fun r => r = 1 : Fin 2 → Bool) r = true)⟩ := by
  obtain ⟨coordinators, hrecord, hsync⟩ := syncWords_of_reachable reachable_twoCycles (by decide)
    (fun _ _ => false) (fun r => r = 1)
  have hhit : ∀ r : Fin 2, (recordMessages ((stateAfter twoCycles).workers r).cache (fun _ => false)
      ((stateAfter twoCycles).workers r).messages).toOption.map (fun c => decide (0 ∈ c.cacheHits)) =
        some true := by decide +kernel
  refine ⟨coordinators, by decide +kernel, fun r => ?_, hrecord, hsync⟩
  have hbit := hhit r
  rw [(hrecord r).1] at hbit
  simpa [Except.toOption] using hbit

end ContainerHackathon.Horovod
