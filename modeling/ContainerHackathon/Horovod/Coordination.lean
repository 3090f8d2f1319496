import ContainerHackathon.Horovod.Controller

/-!
# Horovod.Coordination

What the steps of `ComputeResponseList` do on one rank, given a cache whose
bits and names fit together: they succeed, and what they yield can be said by
tensor names alone.
-/

namespace ContainerHackathon.Horovod

open Fallible

/-- What ranks have in common of an entry: not the device. -/
def Entry.shared (e : Entry) : Response × TensorInfo := (e.response, e.params.tensor)

namespace ResponseCache

variable {c c' : ResponseCache} {m : Request} {ms : List Request} {e : Entry} {bit : Nat}

/-! ## the state of a request -/

/-- What the cache has for a request. -/
def stateOf (c : ResponseCache) (m : Request) : CacheState :=
  match Keyed.lookup Entry.name m.tensorName c.cache with
  | none => .miss
  | some e => if e.params = m.params then .hit else .invalid

theorem cached_eq (hc : c.WF) (m : Request) :
    c.cached m.tensorName m.params = .ok (c.stateOf m) := by
  rw [stateOf]
  cases hlookup : Keyed.lookup Entry.name m.tensorName c.cache with
  | none => exact cached_of_notMem hc (Keyed.lookup_eq_none.mp hlookup)
  | some e =>
      rw [← Keyed.key_of_lookup hlookup]
      exact cached_of_mem hc (Keyed.mem_of_lookup hlookup)

theorem stateOf_eq_hit (hc : c.WF) :
    c.stateOf m = .hit ↔ ∃ e ∈ c.cache, e.name = m.tensorName ∧ e.params = m.params := by
  rw [stateOf]
  constructor
  · intro h
    split at h
    · cases h
    · next e hlookup =>
      split at h
      · next hparams =>
        exact ⟨e, Keyed.mem_of_lookup hlookup, Keyed.key_of_lookup hlookup, hparams⟩
      · cases h
  · rintro ⟨e, he, hname, hparams⟩
    rw [(Keyed.lookup_eq_some hc.nodup).mpr ⟨he, hname⟩]
    exact if_pos hparams

theorem stateOf_eq_miss : c.stateOf m = .miss ↔ m.tensorName ∉ c.cache.map Entry.name := by
  rw [← Keyed.lookup_eq_none, stateOf]
  split
  · next h => exact iff_of_true rfl h
  · next h => exact iff_of_false (by split <;> exact CacheState.noConfusion) (by rw [h]; simp)

theorem exists_peekCacheBit (hc : c.WF) (h : c.stateOf m ≠ .miss) :
    ∃ bit, c.peekCacheBit m.tensorName = .ok bit ∧ c.tensorNameToBit m.tensorName = some bit := by
  obtain ⟨bit, hbit⟩ := (hc.names _).mp (Classical.not_not.mp (mt stateOf_eq_miss.mpr h))
  exact ⟨bit, by rw [peekCacheBit, hbit]; rfl, hbit⟩

/-- A bit belongs to one name. -/
theorem bit_injective (hc : c.WF) {name name' : String} (h : c.tensorNameToBit name = some bit)
    (h' : c.tensorNameToBit name' = some bit) : name = name' := by
  rw [hc.bits] at h h'
  exact Option.some.inj (Option.some.inj (h.symm.trans h'))

/-- Caches with the same names by age give them the same bits. -/
theorem tensorNameToBit_congr {d : ResponseCache} (hc : c.WF) (hd : d.WF)
    (hcu : c.bitsOutdated = false) (hdu : d.bitsOutdated = false)
    (h : c.cache.map Entry.name = d.cache.map Entry.name) :
    c.tensorNameToBit = d.tensorNameToBit := by
  funext name
  refine Option.ext fun bit => ?_
  rw [hc.bits, hd.bits, hc.compact hcu, hd.compact hdu, namesByAge, namesByAge, h]

/-! ## recording -/

theorem exists_recordMessage (hc : c.WF) (acc : CacheCoordinator) (m : Request) :
    ∃ acc', recordMessage c acc m = .ok acc' ∧
      (∀ b, b ∈ acc'.cacheHits ↔ b ∈ acc.cacheHits ∨
        c.stateOf m = .hit ∧ c.tensorNameToBit m.tensorName = some b) ∧
      (∀ b, b ∈ acc'.invalidBits ↔ b ∈ acc.invalidBits ∨
        c.stateOf m = .invalid ∧ c.tensorNameToBit m.tensorName = some b) ∧
      (acc'.uncachedInQueue = true ↔ acc.uncachedInQueue = true ∨ c.stateOf m ≠ .hit) := by
  rw [recordMessage, cached_eq hc]
  cases hstate : c.stateOf m with
  | miss => exact ⟨_, rfl, by simp, by simp, by simp⟩
  | hit =>
      obtain ⟨bit, hpeek, hbit⟩ := exists_peekCacheBit hc (m := m) (by rw [hstate]; simp)
      refine ⟨_, by simp only [ok_bind, hpeek]; rfl, fun b => ?_, by simp, by simp⟩
      simp only [Finset.mem_insert, hbit, Option.some.injEq, true_and]
      rw [or_comm, eq_comm]
  | invalid =>
      obtain ⟨bit, hpeek, hbit⟩ := exists_peekCacheBit hc (m := m) (by rw [hstate]; simp)
      refine ⟨_, by simp only [ok_bind, hpeek]; rfl, by simp, fun b => ?_, by simp⟩
      simp only [Finset.mem_insert, hbit, Option.some.injEq, true_and]
      rw [or_comm, eq_comm]

theorem exists_invalidateStalled (hc : c.WF) (stalled : Request → Bool) (acc : CacheCoordinator)
    (m : Request) : ∃ acc', invalidateStalled c stalled acc m = .ok acc' ∧
      acc'.cacheHits = acc.cacheHits ∧
      (∀ b, b ∈ acc'.invalidBits ↔ b ∈ acc.invalidBits ∨
        (c.stateOf m = .hit ∧ stalled m = true) ∧ c.tensorNameToBit m.tensorName = some b) ∧
      (acc'.uncachedInQueue = true ↔
        acc.uncachedInQueue = true ∨ c.stateOf m = .hit ∧ stalled m = true) := by
  rw [invalidateStalled, cached_eq hc]
  cases hstate : c.stateOf m with
  | miss => exact ⟨_, rfl, rfl, by simp, by simp⟩
  | invalid => exact ⟨_, rfl, rfl, by simp, by simp⟩
  | hit =>
      obtain ⟨bit, hpeek, hbit⟩ := exists_peekCacheBit hc (m := m) (by rw [hstate]; simp)
      simp only [ok_bind]
      by_cases hstalled : stalled m = true
      · rw [if_pos hstalled, hpeek]
        refine ⟨_, rfl, rfl, fun b => ?_, by simp [hstalled]⟩
        simp only [Finset.mem_insert, hbit, Option.some.injEq, hstalled, true_and, and_self]
        rw [or_comm, eq_comm]
      · rw [if_neg hstalled]
        exact ⟨acc, rfl, rfl, by simp [hstalled], by simp [hstalled]⟩

/-- The request makes its cached response invalid. -/
def invalidates (c : ResponseCache) (stalled : Request → Bool) (m : Request) : Prop :=
  c.stateOf m = .invalid ∨ c.stateOf m = .hit ∧ stalled m = true

theorem exists_foldl_recordMessage (hc : c.WF) (ms : List Request) (acc : CacheCoordinator) :
    ∃ acc', ms.foldlM (recordMessage c) acc = .ok acc' ∧
      (∀ b, b ∈ acc'.cacheHits ↔ b ∈ acc.cacheHits ∨
        ∃ m ∈ ms, c.stateOf m = .hit ∧ c.tensorNameToBit m.tensorName = some b) ∧
      (∀ b, b ∈ acc'.invalidBits ↔ b ∈ acc.invalidBits ∨
        ∃ m ∈ ms, c.stateOf m = .invalid ∧ c.tensorNameToBit m.tensorName = some b) ∧
      (acc'.uncachedInQueue = true ↔
        acc.uncachedInQueue = true ∨ ∃ m ∈ ms, c.stateOf m ≠ .hit) := by
  induction ms generalizing acc with
  | nil => exact ⟨acc, rfl, by simp, by simp, by simp⟩
  | cons m ms ih =>
      obtain ⟨acc₁, hstep, hhits, hinvalid, huncached⟩ := exists_recordMessage hc acc m
      obtain ⟨acc₂, hrun, hhits', hinvalid', huncached'⟩ := ih acc₁
      refine ⟨acc₂, by rw [List.foldlM_cons, hstep]; exact hrun, fun b => ?_, fun b => ?_, ?_⟩
      · rw [hhits', hhits, List.exists_mem_cons_iff, or_assoc]
      · rw [hinvalid', hinvalid, List.exists_mem_cons_iff, or_assoc]
      · rw [huncached', huncached, List.exists_mem_cons_iff, or_assoc]

theorem exists_foldl_invalidateStalled (hc : c.WF) (stalled : Request → Bool) (ms : List Request)
    (acc : CacheCoordinator) : ∃ acc', ms.foldlM (invalidateStalled c stalled) acc = .ok acc' ∧
      acc'.cacheHits = acc.cacheHits ∧
      (∀ b, b ∈ acc'.invalidBits ↔ b ∈ acc.invalidBits ∨ ∃ m ∈ ms,
        (c.stateOf m = .hit ∧ stalled m = true) ∧ c.tensorNameToBit m.tensorName = some b) ∧
      (acc'.uncachedInQueue = true ↔ acc.uncachedInQueue = true ∨
        ∃ m ∈ ms, c.stateOf m = .hit ∧ stalled m = true) := by
  induction ms generalizing acc with
  | nil => exact ⟨acc, rfl, rfl, by simp, by simp⟩
  | cons m ms ih =>
      obtain ⟨acc₁, hstep, hhits, hinvalid, huncached⟩ := exists_invalidateStalled hc stalled acc m
      obtain ⟨acc₂, hrun, hhits', hinvalid', huncached'⟩ := ih acc₁
      refine ⟨acc₂, by rw [List.foldlM_cons, hstep]; exact hrun, hhits'.trans hhits,
        fun b => ?_, ?_⟩
      · rw [hinvalid', hinvalid, List.exists_mem_cons_iff, or_assoc]
      · rw [huncached', huncached, List.exists_mem_cons_iff, or_assoc]

/-- **What is recorded on one rank.** -/
theorem exists_recordMessages (hc : c.WF) (stalled : Request → Bool) (ms : List Request) :
    ∃ acc, recordMessages c stalled ms = .ok acc ∧
      (∀ b, b ∈ acc.cacheHits ↔
        ∃ m ∈ ms, c.stateOf m = .hit ∧ c.tensorNameToBit m.tensorName = some b) ∧
      (∀ b, b ∈ acc.invalidBits ↔
        ∃ m ∈ ms, c.invalidates stalled m ∧ c.tensorNameToBit m.tensorName = some b) ∧
      (acc.uncachedInQueue = false ↔ ∀ m ∈ ms, c.stateOf m = .hit ∧ stalled m = false) := by
  obtain ⟨acc, hrecord, hhits, hinvalid, huncached⟩ := exists_foldl_recordMessage hc ms ⟨∅, ∅, false⟩
  obtain ⟨acc', hrun, hhits', hinvalid', huncached'⟩ := exists_foldl_invalidateStalled hc stalled ms acc
  refine ⟨acc', by rw [recordMessages, hrecord]; exact hrun, fun b => ?_, fun b => ?_, ?_⟩
  · rw [hhits', hhits]
    simp
  · rw [hinvalid', hinvalid]
    simp only [Finset.notMem_empty, false_or, invalidates, ← exists_or, ← and_or_left, ← or_and_right]
  · rw [← Bool.not_eq_true, huncached', huncached]
    simp only [Bool.false_eq_true, false_or, ← exists_or, ← and_or_left, not_exists, not_and]
    refine forall₂_congr fun m _ => ?_
    by_cases hhit : c.stateOf m = .hit <;> simp [hhit]

/-! ## erasing -/

theorem exists_foldl_eraseResponse (hc : c.WF) {bits : List Nat} (hnodup : bits.Nodup)
    (hactive : ∀ b ∈ bits, ∃ e ∈ c.cache, c.tensorNameToBit e.name = some b) :
    ∃ c', bits.foldlM eraseResponse c = .ok c' ∧ c'.WF ∧ c'.capacity = c.capacity ∧
      (∀ name, c'.tensorNameToBit name = (c.tensorNameToBit name).filter (· ∉ bits)) ∧
      c'.cache = c.cache.filter fun e => (c'.tensorNameToBit e.name).isSome := by
  induction bits generalizing c with
  | nil =>
      refine ⟨c, rfl, hc, rfl, fun name => by cases c.tensorNameToBit name <;> rfl, ?_⟩
      refine (List.filter_eq_self.mpr fun e he => ?_).symm
      obtain ⟨bit, hbit, -⟩ := exists_bit hc he
      rw [hbit, Option.isSome_some]
  | cons b bits ih =>
      rw [List.forall_mem_cons] at hactive
      rw [List.nodup_cons] at hnodup
      obtain ⟨⟨e, he, hbit⟩, hactive⟩ := hactive
      have herase := eraseResponse_eq hc he hbit
      have hwf := wf_eraseResponse hc he hbit herase
      obtain ⟨c', hrun, hwf', hcapacity, hbits, hcache⟩ := ih hwf hnodup.2 fun b' hb' => by
        obtain ⟨e', he', hbit'⟩ := hactive b' hb'
        have hne : e'.name ≠ e.name := fun h => by
          rw [h, hbit] at hbit'
          exact hnodup.1 (Option.some.inj hbit' ▸ hb')
        refine ⟨e', Keyed.mem_without.mpr ⟨he', hne⟩, ?_⟩
        exact (Function.update_of_ne hne _ _).trans hbit'
      have hbits' : ∀ name, c'.tensorNameToBit name =
          (c.tensorNameToBit name).filter (· ∉ b :: bits) := fun name => by
        rw [hbits]
        by_cases hname : name = e.name
        · simp [hname, bitFor, hbit, Option.filter_some]
        · simp only [bitFor, Function.update_of_ne hname]
          cases hb' : c.tensorNameToBit name with
          | none => rfl
          | some b' =>
              have hne : b' ≠ b := fun h => hname (bit_injective hc (h ▸ hb') hbit)
              simp [Option.filter_some, hne]
      refine ⟨c', by rw [List.foldlM_cons, herase]; exact hrun, hwf', hcapacity, hbits', ?_⟩
      rw [hcache, Keyed.without, List.filter_filter]
      refine List.filter_congr fun x _ => ?_
      by_cases hname : x.name = e.name
      · simp [hname, hbits', hbit]
      · simp [hname]

/-- **The invalid entries are erased**, and no others. -/
theorem exists_eraseInvalid (hc : c.WF) {bits : Finset Nat}
    (hactive : ∀ b ∈ bits, ∃ e ∈ c.cache, c.tensorNameToBit e.name = some b) :
    ∃ c', eraseInvalid bits c = .ok c' ∧ c'.WF ∧ c'.capacity = c.capacity ∧
      (∀ name, c'.tensorNameToBit name = (c.tensorNameToBit name).filter (· ∉ bits)) ∧
      c'.cache = c.cache.filter fun e => (c'.tensorNameToBit e.name).isSome := by
  have h := exists_foldl_eraseResponse hc (Finset.sort_nodup bits (· ≤ ·)) fun b hb =>
    hactive b ((Finset.mem_sort _).mp hb)
  simp only [Finset.mem_sort] at h
  exact h

/-! ## what becomes of the requests -/

/-- The request has a response in the cache. -/
def hits (c : ResponseCache) (m : Request) : Bool := c.stateOf m = .hit

/-- The response in the cache is one of those that are performed. -/
def chosen (c : ResponseCache) (bits : Finset Nat) (name : String) : Bool :=
  (c.tensorNameToBit name).any (· ∈ bits)

theorem foldl_sortMessage (hc : c.WF) (bits : Finset Nat) (ms : List Request)
    (acc : List Request × List Request) : ms.foldlM (sortMessage c bits) acc = .ok
      (acc.1 ++ ms.filter fun m => c.hits m && !c.chosen bits m.tensorName,
       acc.2 ++ ms.filter fun m => !c.hits m) := by
  induction ms generalizing acc with
  | nil => simp only [List.foldlM_nil, List.filter_nil, List.append_nil]; rfl
  | cons m ms ih =>
      rw [List.foldlM_cons, sortMessage, cached_eq hc]
      simp only [ok_bind, hits, List.filter_cons]
      cases hstate : c.stateOf m with
      | miss | invalid => exact (ih _).trans (by simp [hits])
      | hit =>
          obtain ⟨bit, hpeek, hbit⟩ := exists_peekCacheBit hc (m := m) (by rw [hstate]; simp)
          simp only [hpeek, ok_bind, chosen, hbit, Option.any_some]
          by_cases hmem : bit ∈ bits
          · rw [if_pos hmem]
            exact (ih _).trans (by simp [hits, chosen, hmem])
          · rw [if_neg hmem]
            exact (ih _).trans (by simp [hits, chosen, hmem])

/-! ## the responses of bits -/

/-- The entries of the bits that have one. -/
def entries (c : ResponseCache) (bits : List Nat) : List Entry :=
  bits.filterMap fun bit => (c.entryAt bit).toOption

theorem entries_cons (h : c.entryAt bit = .ok e) (bits : List Nat) :
    c.entries (bit :: bits) = e :: c.entries bits := by
  rw [entries, List.filterMap_cons, h]
  rfl

theorem mem_entries (hc : c.WF) {bits : List Nat} :
    e ∈ c.entries bits ↔ e ∈ c.cache ∧ ∃ b ∈ bits, c.tensorNameToBit e.name = some b := by
  have hentry : ∀ b, (c.entryAt b).toOption = some e ↔
      e ∈ c.cache ∧ c.tensorNameToBit e.name = some b := fun b => by
    rw [← entryAt_eq_ok hc]
    cases c.entryAt b <;> simp [Except.toOption]
  simp only [entries, List.mem_filterMap, hentry]
  exact ⟨fun ⟨b, hb, he, hbit⟩ => ⟨he, b, hb, hbit⟩, fun ⟨he, b, hb, hbit⟩ => ⟨b, hb, he, hbit⟩⟩

/-- Bits that differ belong to entries of different names. -/
theorem nodup_entries (hc : c.WF) {bits : List Nat} (h : bits.Nodup) :
    ((c.entries bits).map Entry.name).Nodup := by
  induction bits with
  | nil => exact List.nodup_nil
  | cons b bits ih =>
      rw [List.nodup_cons] at h
      cases hentry : c.entryAt b with
      | error f =>
          rw [entries, List.filterMap_cons, hentry]
          exact ih h.2
      | ok e =>
          rw [entries_cons hentry, List.map_cons, List.nodup_cons]
          refine ⟨fun hmem => ?_, ih h.2⟩
          obtain ⟨e', he', hname⟩ := List.mem_map.mp hmem
          obtain ⟨-, b', hb', hbit'⟩ := (mem_entries hc).mp he'
          rw [hname, ((entryAt_eq_ok hc).mp hentry).2] at hbit'
          exact h.1 (Option.some.inj hbit' ▸ hb')

theorem mapM_peekResponse {bits : List Nat} (h : ∀ b ∈ bits, ∃ e, c.entryAt b = .ok e) :
    bits.mapM c.peekResponse = .ok ((c.entries bits).map Entry.response) := by
  induction bits with
  | nil => rfl
  | cons b bits ih =>
      rw [List.forall_mem_cons] at h
      obtain ⟨⟨e, hentry⟩, h⟩ := h
      rw [mapM_eq_ok_cons, entries_cons hentry]
      exact ⟨e.response, _, by rw [peekResponse, hentry]; rfl, ih h, rfl⟩

/-- Moving an entry to the front leaves the bits alone. -/
theorem entryAt_touch (hc : c.WF) (name : String) (bit : Nat) :
    ({ c with cache := Keyed.touch Entry.name name c.cache, bitsOutdated := true } :
      ResponseCache).entryAt bit = c.entryAt bit := by
  rw [entryAt, entryAt]
  cases c.cacheIters[bit]? with
  | none => rfl
  | some name' =>
      cases name' with
      | none => rfl
      | some x =>
          have hlookup : Keyed.lookup Entry.name x (Keyed.touch Entry.name name c.cache) =
              Keyed.lookup Entry.name x c.cache :=
            Option.ext fun e => by
              rw [Keyed.lookup_eq_some (wf_touch hc name).nodup, Keyed.lookup_eq_some hc.nodup,
                (Keyed.touch_perm hc.nodup).mem_iff]
          simp only [hlookup]

/-- **The cached responses**, which become the most recently used ones. -/
theorem exists_getResponses (hc : c.WF) {bits : List Nat}
    (h : ∀ b ∈ bits, ∃ e, c.entryAt b = .ok e) :
    ∃ c', getResponses c bits = .ok ((c.entries bits).map Entry.response, c') ∧ c'.WF ∧
      c'.capacity = c.capacity ∧
      c'.cache = ((c.entries bits).map Entry.name).foldl
        (fun l name => Keyed.touch Entry.name name l) c.cache := by
  induction bits generalizing c with
  | nil => exact ⟨c, rfl, hc, rfl, rfl⟩
  | cons b bits ih =>
      rw [List.forall_mem_cons] at h
      obtain ⟨⟨e, hentry⟩, h⟩ := h
      obtain ⟨he, hbit⟩ := (entryAt_eq_ok hc).mp hentry
      have hsame := entryAt_touch hc e.name
      obtain ⟨c', hrun, hwf, hcapacity, hcache⟩ := ih (wf_touch hc e.name) fun b' hb' => by
        rw [hsame]
        exact h b' hb'
      have hentries : ({ c with
          cache := Keyed.touch Entry.name e.name c.cache, bitsOutdated := true } :
            ResponseCache).entries bits = c.entries bits := by
        simp only [entries, hsame]
      rw [hentries] at hrun hcache
      refine ⟨c', ?_, hwf, hcapacity, by rw [entries_cons hentry]; exact hcache⟩
      rw [getResponses, getResponse_eq hc he hbit]
      simp only [ok_bind, hrun, entries_cons hentry]
      rfl

/-! ## adding -/

theorem exists_put_ (params : TensorParams) (hc : c.WF) (hcapacity : c.capacity ≠ 0)
    {response : Response} {name : String} (hsingle : response.tensorNames = [name])
    (hsame : ∀ e ∈ c.cache, e.name = name → e.params = params) :
    ∃ c', c.put_ response params = .ok c' ∧ c'.WF ∧ c'.capacity = c.capacity ∧
      c'.cache = Keyed.use Entry.name c.capacity ⟨response, params⟩ c.cache := by
  have hname : Entry.name ⟨response, params⟩ = name := by rw [Entry.name, hsingle, List.headD_cons]
  by_cases hmem : name ∈ c.cache.map Entry.name
  · obtain ⟨e, he, rfl⟩ := List.mem_map.mp hmem
    refine ⟨_, by rw [← hsame e he rfl]; exact put_eq_touch hc he hname, wf_touch hc e.name, rfl, ?_⟩
    rw [Keyed.use_of_mem _ (by rw [hname]; exact hmem), hname]
  · obtain ⟨c', hput, hwf, hcap, hcache⟩ := exists_put_new params hc hcapacity hsingle hmem
    exact ⟨c', hput, hwf, hcap, by rw [hcache, Keyed.use_of_notMem _ (by rw [hname]; exact hmem)]⟩

/-! ### the order of use -/

/-- How the cache is used: for a response that was performed, or to find one. -/
inductive Use
  | put (response : Response) (params : TensorParams)
  | get (name : String)

def Use.name : Use → String
  | .put response _ => response.tensorNames.headD ""
  | .get name => name

def use (c : ResponseCache) : Use → Except Failure ResponseCache
  | .put response params => c.put_ response params
  | .get name => do
      let bit ← c.peekCacheBit name
      let (_, c) ← c.getResponse bit
      return c

/-- Whatever is put, it is used. -/
theorem cache_of_put_ (hc : c.WF) (hcapacity : c.capacity ≠ 0) {response : Response} {name : String}
    {params : TensorParams} (hsingle : response.tensorNames = [name])
    (h : c.put_ response params = .ok c') : c'.WF ∧ c'.capacity = c.capacity ∧
      c'.cache = Keyed.use Entry.name c.capacity ⟨response, params⟩ c.cache := by
  have hsame : ∀ e ∈ c.cache, e.name = name → e.params = params := fun e he hname => by
    by_contra hne
    rw [put_, hsingle, List.headD_cons, ← hname, cached_of_mem hc he, if_neg hne] at h
    cases h
  obtain ⟨c'', hput, hspec⟩ := exists_put_ params hc hcapacity hsingle hsame
  obtain rfl := Except.ok.inj (h.symm.trans hput)
  exact hspec

theorem cache_of_use (hc : c.WF) (hcapacity : c.capacity ≠ 0) {u : Use}
    (hsingle : ∀ response params, u = .put response params → response.tensorNames = [u.name])
    (h : c.use u = .ok c') : c'.WF ∧ c'.capacity = c.capacity ∧ ∃ e : Entry, e.name = u.name ∧
      c'.cache = Keyed.use Entry.name c.capacity e c.cache := by
  cases u with
  | put response params =>
      obtain ⟨hwf, hcap, hcache⟩ := cache_of_put_ hc hcapacity (hsingle response params rfl) h
      exact ⟨hwf, hcap, ⟨response, params⟩, rfl, hcache⟩
  | get name =>
      obtain ⟨bit, hpeek, hget⟩ := bind_eq_ok.mp h
      have hbit : c.tensorNameToBit name = some bit := by
        rw [peekCacheBit] at hpeek
        cases hbit : c.tensorNameToBit name with
        | none => rw [hbit] at hpeek; cases hpeek
        | some b => rw [hbit] at hpeek; exact congrArg some (Except.ok.inj hpeek)
      obtain ⟨e, he, rfl⟩ := List.mem_map.mp ((hc.names name).mpr ⟨bit, hbit⟩)
      rw [getResponse_eq hc he hbit] at hget
      obtain rfl := Except.ok.inj hget
      refine ⟨wf_touch hc e.name, rfl, e, rfl, ?_⟩
      rw [Keyed.use_of_mem _ (List.mem_map_of_mem he)]

/-- **The cache is an LRU cache**: after any uses, it has the responses that
were used last, the last one first, and all of them up to its capacity. -/
theorem names_of_uses {capacity : Nat} (hcapacity : 0 < capacity) {uses : List Use}
    (hsingle : ∀ response params, .put response params ∈ uses →
      ∃ name, response.tensorNames = [name])
    (h : uses.foldlM use (empty capacity) = .ok c) :
    c.cache.map Entry.name = (Keyed.recency (uses.map Use.name)).take capacity := by
  suffices hall : ∀ (names : List String) (c₀ : ResponseCache), c₀.WF → c₀.capacity = capacity →
      c₀.cache.map Entry.name = (Keyed.recency names).take capacity →
      uses.foldlM use c₀ = .ok c →
      c.cache.map Entry.name = (Keyed.recency (names ++ uses.map Use.name)).take capacity from
    hall [] (empty capacity) (wf_empty capacity) rfl (List.take_nil).symm h
  clear h
  induction uses with
  | nil =>
      intro names c₀ _ _ hnames h
      obtain rfl := Except.ok.inj h
      rw [hnames, List.map_nil, List.append_nil]
  | cons u uses ih =>
      intro names c₀ hc hcap hnames h
      rw [List.foldlM_cons] at h
      obtain ⟨c₁, huse, h⟩ := bind_eq_ok.mp h
      have hput : ∀ response params, u = .put response params →
          response.tensorNames = [u.name] := by
        rintro response params rfl
        obtain ⟨name, hname⟩ := hsingle response params List.mem_cons_self
        rw [Use.name, hname, List.headD_cons]
      obtain ⟨hc₁, hcap₁, e, hname, hcache⟩ := cache_of_use hc (by omega) hput huse
      have hnames₁ : c₁.cache.map Entry.name =
          (Keyed.recency (names ++ [u.name])).take capacity := by
        rw [hcache, hcap, Keyed.map_key_use hcapacity (Keyed.nodup_recency names) hnames,
          Keyed.recency_concat, hname]
      rw [List.map_cons, ← List.singleton_append, ← List.append_assoc]
      exact ih (fun response params hmem => hsingle response params (List.mem_cons_of_mem u hmem))
        (names ++ [u.name]) c₁ hc₁ (hcap₁.trans hcap) hnames₁ h

/-- A response for one tensor, for the example. -/
def sampleResponse (name : String) : Response := ⟨.allreduce, [name], "", [cpuDeviceId], []⟩

def sampleUses : List Use :=
  [.put (sampleResponse "a") ⟨⟨.float32, [3]⟩, cpuDeviceId⟩,
    .put (sampleResponse "b") ⟨⟨.float32, [4]⟩, cpuDeviceId⟩, .get "a",
    .put (sampleResponse "c") ⟨⟨.float32, [5]⟩, cpuDeviceId⟩]

/-- Of three responses the one that was not used again is evicted. -/
theorem names_of_sampleUses : ∃ c, sampleUses.foldlM use (empty 2) = .ok c ∧
    c.cache.map Entry.name = ["c", "a"] := by
  have hsingle : ∀ response params, Use.put response params ∈ sampleUses →
      ∃ name, response.tensorNames = [name] := by
    intro response params hmem
    simp only [sampleUses, List.mem_cons, Use.put.injEq, reduceCtorEq, List.not_mem_nil, or_false,
      false_or] at hmem
    rcases hmem with ⟨rfl, -⟩ | ⟨rfl, -⟩ | ⟨rfl, -⟩ <;> exact ⟨_, rfl⟩
  obtain ⟨c, hrun⟩ : ∃ c, sampleUses.foldlM use (empty 2) = .ok c := ⟨_, rfl⟩
  refine ⟨c, hrun, (names_of_uses (by decide) hsingle hrun).trans ?_⟩
  decide

/-! ### `put` -/

/-- The entry has the parameters of the tensor in the table. -/
def Fits (table : List TensorTableEntry) (e : Entry) : Prop :=
  ∃ t, Keyed.lookup TensorTableEntry.tensorName e.name table = some t ∧ e.params = t.params

/-- What `put` needs: the entries for these names fit the table. -/
structure Putting (table : List TensorTableEntry) (names : String → Prop) (capacity : Nat)
    (c : ResponseCache) : Prop where
  wf : c.WF
  capacity : c.capacity = capacity
  fits : ∀ e ∈ c.cache, names e.name → Fits table e

section adding

variable {table : List TensorTableEntry} {names : String → Prop} {capacity : Nat}

theorem exists_foldl_put_ (hcapacity : capacity ≠ 0) (split : String → Response)
    (hsplit : ∀ x, (split x).tensorNames = [x]) {xs : List String} (hxs : ∀ x ∈ xs, names x)
    (htable : ∀ x ∈ xs, x ∈ table.map TensorTableEntry.tensorName)
    (hc : Putting table names capacity c) :
    ∃ c', xs.foldlM (fun c x => do
        let t ← getTensorEntry table x
        c.put_ (split x) t.params) c = .ok c' ∧ Putting table names capacity c' ∧
      c'.cache = (xs.filterMap fun x => (Keyed.lookup TensorTableEntry.tensorName x table).map
        fun t => ⟨split x, t.params⟩).foldl (fun l e => Keyed.use Entry.name capacity e l) c.cache := by
  induction xs generalizing c with
  | nil => exact ⟨c, rfl, hc, rfl⟩
  | cons x xs ih =>
      rw [List.forall_mem_cons] at hxs htable
      obtain ⟨t, ht⟩ := Keyed.exists_lookup htable.1
      obtain ⟨c₁, hput, hwf, hcap, hcache⟩ := exists_put_ t.params hc.wf
        (hc.capacity ▸ hcapacity) (hsplit x) fun e he hname => by
          obtain ⟨t', ht', hparams⟩ := hc.fits e he (hname ▸ hxs.1)
          rw [hname, ht] at ht'
          rw [hparams, Option.some.inj ht']
      rw [hc.capacity] at hcap hcache
      obtain ⟨c', hrun, hc', hcache'⟩ := ih hxs.2 htable.2 ⟨hwf, hcap, fun e he hname => by
        rw [hcache] at he
        rcases Keyed.mem_of_mem_use hc.wf.nodup he with rfl | he
        · refine ⟨t, ?_, rfl⟩
          rwa [Entry.name, hsplit, List.headD_cons]
        · exact hc.fits e he hname⟩
      refine ⟨c', ?_, hc', ?_⟩
      · rw [List.foldlM_cons, getTensorEntry, ht]
        simp only [Option.elim_some, ok_bind, hput]
        exact hrun
      · rw [hcache', hcache, List.filterMap_cons, ht]
        rfl

/-- What is put for one name of a response. -/
def entryFor (response : Response) (t : TensorTableEntry) : Entry :=
  ⟨if response.tensorNames = [t.tensorName] then response else splitResponse response t.tensorName,
    t.params⟩

/-- What is put for a response. -/
def entriesFor (table : List TensorTableEntry) (response : Response) : List Entry :=
  response.tensorNames.filterMap fun x =>
    (Keyed.lookup TensorTableEntry.tensorName x table).map (entryFor response)

theorem exists_put (hcapacity : capacity ≠ 0) {response : Response}
    (hne : response.tensorNames ≠ []) (hnames : ∀ x ∈ response.tensorNames, names x)
    (htable : ∀ x ∈ response.tensorNames, x ∈ table.map TensorTableEntry.tensorName)
    (hc : Putting table names capacity c) :
    ∃ c', c.put response table = .ok c' ∧ Putting table names capacity c' ∧
      c'.cache = (entriesFor table response).foldl
        (fun l e => Keyed.use Entry.name capacity e l) c.cache := by
  have hentries : ∀ split : String → Response,
      (∀ x ∈ response.tensorNames,
        split x = if response.tensorNames = [x] then response else splitResponse response x) →
      (response.tensorNames.filterMap fun x =>
        (Keyed.lookup TensorTableEntry.tensorName x table).map fun t => (⟨split x, t.params⟩ : Entry)) =
      entriesFor table response := fun split hsplit => by
    refine List.filterMap_congr fun x hx => ?_
    cases hlookup : Keyed.lookup TensorTableEntry.tensorName x table with
    | none => rfl
    | some t =>
        rw [Option.map_some, Option.map_some, hsplit x hx, entryFor, Keyed.key_of_lookup hlookup]
  rw [put, if_neg (hc.capacity ▸ hcapacity)]
  split
  · next heq => exact absurd heq hne
  · next name heq =>
    rw [← hentries (fun x => { response with tensorNames := [x] }) fun x hx => by
      obtain rfl : x = name := by simpa [heq] using hx
      rw [if_pos heq, ← heq]]
    obtain ⟨c', hrun, hc', hcache⟩ := exists_foldl_put_ hcapacity
      (fun x => { response with tensorNames := [x] }) (fun _ => rfl) hnames htable hc
    refine ⟨c', ?_, hc', hcache⟩
    rw [heq, List.foldlM_cons] at hrun
    simp only [List.foldlM_nil, bind_pure, ← heq] at hrun
    exact hrun
  · next hnil hsingle =>
    rw [← hentries (splitResponse response) fun x _ => (if_neg (hsingle x)).symm]
    exact exists_foldl_put_ hcapacity (splitResponse response) (fun _ => rfl) hnames htable hc

/-- **All supported responses are put into the cache**; none has a name whose
cached response is for other parameters. -/
theorem exists_putResponses (hcapacity : capacity ≠ 0) (size : Nat) {responses : List Response}
    (hne : ∀ r ∈ responses, r.tensorNames ≠ [])
    (hnames : ∀ r ∈ responses, ∀ x ∈ r.tensorNames, names x)
    (htable : ∀ r ∈ responses, ∀ x ∈ r.tensorNames, x ∈ table.map TensorTableEntry.tensorName)
    (hc : Putting table names capacity c) :
    ∃ c', putResponses size table responses c = .ok c' ∧ Putting table names capacity c' ∧
      c'.cache = ((responses.filter (supported size)).flatMap (entriesFor table)).foldl
        (fun l e => Keyed.use Entry.name capacity e l) c.cache := by
  induction responses generalizing c with
  | nil => exact ⟨c, rfl, hc, rfl⟩
  | cons r responses ih =>
      rw [List.forall_mem_cons] at hne hnames htable
      rw [putResponses, List.foldlM_cons, List.filter_cons]
      by_cases hsupported : supported size r = true
      · obtain ⟨c₁, hput, hc₁, hcache₁⟩ := exists_put hcapacity hne.1 hnames.1 htable.1 hc
        obtain ⟨c', hrun, hc', hcache'⟩ := ih hne.2 hnames.2 htable.2 hc₁
        rw [if_pos hsupported, if_pos hsupported, hput, List.flatMap_cons, List.foldl_append, ← hcache₁]
        exact ⟨c', hrun, hc', hcache'⟩
      · rw [if_neg hsupported, if_neg hsupported]
        exact ih hne.2 hnames.2 htable.2 hc

end adding

/-! ## caches of different ranks -/

/-- The caches have the same responses, in the same order of use. -/
def Coherent (c d : ResponseCache) : Prop := c.cache.map Entry.shared = d.cache.map Entry.shared

variable {d d' : ResponseCache}

theorem sharedName (e : Entry) : e.shared.1.tensorNames.headD "" = e.name := rfl

theorem Coherent.names (h : c.Coherent d) : c.cache.map Entry.name = d.cache.map Entry.name := by
  have := congrArg (List.map fun s : Response × TensorInfo => s.1.tensorNames.headD "") h
  rwa [List.map_map, List.map_map] at this

theorem Coherent.exists_shared (h : c.Coherent d) (he : e ∈ c.cache) :
    ∃ e' ∈ d.cache, e'.shared = e.shared := by
  have hmem : e.shared ∈ d.cache.map Entry.shared := h ▸ List.mem_map_of_mem he
  exact List.mem_map.mp hmem

theorem Coherent.filter (h : c.Coherent d) (p : String → Bool)
    (hc : c'.cache = c.cache.filter (p ·.name)) (hd : d'.cache = d.cache.filter (p ·.name)) :
    c'.Coherent d' := by
  have hmap : ∀ l : List Entry, (l.filter (p ·.name)).map Entry.shared =
      (l.map Entry.shared).filter fun s => p (s.1.tensorNames.headD "") := fun l => by
    rw [List.filter_map]
    rfl
  rw [Coherent, hc, hd, hmap, hmap, h]

theorem Coherent.entryAt (h : c.Coherent d) (hc : c.WF) (hd : d.WF)
    (hbits : c.tensorNameToBit = d.tensorNameToBit) (hentry : c.entryAt bit = .ok e) :
    ∃ e', d.entryAt bit = .ok e' ∧ e'.shared = e.shared := by
  obtain ⟨he, hbit⟩ := (entryAt_eq_ok hc).mp hentry
  obtain ⟨e', he', hshared⟩ := h.exists_shared he
  refine ⟨e', (entryAt_eq_ok hd).mpr ⟨he', ?_⟩, hshared⟩
  rw [← sharedName, hshared, sharedName, ← hbits, hbit]

theorem Coherent.entries (h : c.Coherent d) (hc : c.WF) (hd : d.WF)
    (hbits : c.tensorNameToBit = d.tensorNameToBit) (bits : List Nat) :
    (c.entries bits).map Entry.shared = (d.entries bits).map Entry.shared := by
  induction bits with
  | nil => rfl
  | cons b bits ih =>
      cases hentry : c.entryAt b with
      | ok e =>
          obtain ⟨e', hentry', hshared⟩ := h.entryAt hc hd hbits hentry
          rw [entries_cons hentry, entries_cons hentry', List.map_cons, List.map_cons, hshared, ih]
      | error f =>
          have hnone : (d.entryAt b).toOption = none := by
            cases hentry' : d.entryAt b with
            | error f => rfl
            | ok e' =>
                obtain ⟨e, he, -⟩ := Coherent.entryAt (Eq.symm h) hd hc hbits.symm hentry'
                rw [hentry] at he
                cases he
          rw [ResponseCache.entries, ResponseCache.entries, List.filterMap_cons, List.filterMap_cons,
            hentry, hnone]
          exact ih

/-- Ranks that use the same responses stay coherent. -/
theorem Coherent.touch (h : c.Coherent d) (names : List String)
    (hc : c'.cache = names.foldl (fun l name => Keyed.touch Entry.name name l) c.cache)
    (hd : d'.cache = names.foldl (fun l name => Keyed.touch Entry.name name l) d.cache) :
    c'.Coherent d' := by
  have hmap : ∀ (names : List String) (l : List Entry),
      (names.foldl (fun l name => Keyed.touch Entry.name name l) l).map Entry.shared =
      names.foldl (fun l name =>
        Keyed.touch (fun s : Response × TensorInfo => s.1.tensorNames.headD "") name l)
        (l.map Entry.shared) := by
    intro names
    induction names with
    | nil => exact fun l => rfl
    | cons name names ih =>
        intro l
        rw [List.foldl_cons, ih, List.foldl_cons, Keyed.touch_map sharedName]
  rw [Coherent, hc, hd, hmap, hmap, h]

/-- Ranks that put the same responses, for tensors of the same types and
shapes, stay coherent. -/
theorem Coherent.use (h : c.Coherent d) (capacity : Nat) {es fs : List Entry}
    (hentries : es.map Entry.shared = fs.map Entry.shared)
    (hc : c'.cache = es.foldl (fun l e => Keyed.use Entry.name capacity e l) c.cache)
    (hd : d'.cache = fs.foldl (fun l e => Keyed.use Entry.name capacity e l) d.cache) :
    c'.Coherent d' := by
  have hmap : ∀ (es l : List Entry),
      (es.foldl (fun l e => Keyed.use Entry.name capacity e l) l).map Entry.shared =
      (es.map Entry.shared).foldl (fun l s =>
        Keyed.use (fun s : Response × TensorInfo => s.1.tensorNames.headD "") capacity s l)
        (l.map Entry.shared) := by
    intro es
    induction es with
    | nil => exact fun l => rfl
    | cons e es ih =>
        intro l
        rw [List.foldl_cons, ih, List.map_cons, List.foldl_cons, Keyed.use_map sharedName]
  rw [Coherent, hc, hd, hmap, hmap, hentries, h]

end ResponseCache

end ContainerHackathon.Horovod
