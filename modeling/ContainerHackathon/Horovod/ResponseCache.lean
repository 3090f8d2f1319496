import ContainerHackathon.Horovod.Message
import ContainerHackathon.Lib.Fallible

/-!
# Horovod.ResponseCache

`ResponseCache`: responses by tensor name, the least recently used evicted
first, and the cache bits under which ranks talk about them.

The cache is a list of entries, most recently used first.  A bit is an index
into the vector of iterators, and an iterator is modelled by the name of the
entry it points to; `none` is `end()`.  The names point back to the bits.
-/

namespace ContainerHackathon.Horovod

open Fallible

structure Entry where
  response : Response
  params : TensorParams
  deriving DecidableEq, Repr

/-- `response.tensor_names()[0]`. -/
def Entry.name (e : Entry) : String := e.response.tensorNames.headD ""

inductive CacheState
  | miss
  | hit
  | invalid
  deriving DecidableEq, Repr

structure ResponseCache where
  capacity : Nat
  cache : List Entry
  cacheIters : List (Option String)
  tensorNameToBit : String → Option Nat
  bitsOutdated : Bool

namespace ResponseCache

def empty (capacity : Nat) : ResponseCache := ⟨capacity, [], [], fun _ => none, false⟩

def numActiveBits (c : ResponseCache) : Nat := c.cacheIters.length

/-- `*cache_iters_[cache_bit]`. -/
def entryAt (c : ResponseCache) (bit : Nat) : Except Failure Entry :=
  match c.cacheIters[bit]? with
  | some (some name) => (Keyed.lookup Entry.name name c.cache).elim (.error .undefined) .ok
  | _ => .error .undefined

/-- `cached`, of a request or of a response with its parameters. -/
def cached (c : ResponseCache) (name : String) (params : TensorParams) : Except Failure CacheState :=
  match c.tensorNameToBit name with
  | none => .ok .miss
  | some bit => do
      let e ← c.entryAt bit
      return if e.params = params then .hit else .invalid

/-- `peek_cache_bit`. -/
def peekCacheBit (c : ResponseCache) (name : String) : Except Failure Nat :=
  (c.tensorNameToBit name).elim (.error .outOfRange) .ok

def bitFor (tensorNameToBit : String → Option Nat) (name : String) (bit : Option Nat) :
    String → Option Nat :=
  Function.update tensorNameToBit name bit

def overwriteMessage : String :=
  "Trying to overwrite cached response with existing name. This is not allowed."

/-- `put_`. -/
def put_ (c : ResponseCache) (response : Response) (params : TensorParams) :
    Except Failure ResponseCache := do
  let name := response.tensorNames.headD ""
  match ← c.cached name params with
  | .invalid => throw (.logicError overwriteMessage)
  | .hit => do
      let bit ← c.peekCacheBit name
      let _ ← c.entryAt bit
      return { c with cache := Keyed.touch Entry.name name c.cache, bitsOutdated := true }
  | .miss =>
      if c.cache.length = c.capacity then
        match c.cache.getLast? with
        | none => throw .undefined
        | some last => do
            -- the new entry inherits the bit of the evicted one
            let bit ← c.peekCacheBit last.name
            return { c with
              cache := ⟨response, params⟩ :: c.cache.dropLast
              cacheIters := c.cacheIters.set bit (some name)
              tensorNameToBit :=
                bitFor (bitFor c.tensorNameToBit last.name none) name (some bit)
              bitsOutdated := true }
      else
        return { c with
          cache := ⟨response, params⟩ :: c.cache
          cacheIters := c.cacheIters ++ [some name]
          tensorNameToBit := bitFor c.tensorNameToBit name (some c.cacheIters.length)
          bitsOutdated := true }


/-- A response for one of the names of a fused one. -/
def splitResponse (response : Response) (name : String) : Response :=
  { responseType := response.responseType
    tensorNames := [name]
    errorMessage := ""
    devices := response.devices
    tensorSizes := response.tensorSizes }

/-- `put`, with the parameters of this rank's own tensors. -/
def put (c : ResponseCache) (response : Response) (table : List TensorTableEntry) :
    Except Failure ResponseCache :=
  if c.capacity = 0 then .ok c
  else
    match response.tensorNames with
    | [] => .error .undefined
    | [name] => do
        let e ← getTensorEntry table name
        c.put_ response e.params
    | names => names.foldlM (fun c name => do
        let e ← getTensorEntry table name
        c.put_ (splitResponse response name) e.params) c

/-- `get_response`: the entry becomes the most recently used one. -/
def getResponse (c : ResponseCache) (bit : Nat) : Except Failure (Response × ResponseCache) := do
  let e ← c.entryAt bit
  return (e.response, { c with cache := Keyed.touch Entry.name e.name c.cache, bitsOutdated := true })

/-- `peek_response`. -/
def peekResponse (c : ResponseCache) (bit : Nat) : Except Failure Response := do
  let e ← c.entryAt bit
  return e.response

/-- `erase_response`: the bit stays, and points nowhere. -/
def eraseResponse (c : ResponseCache) (bit : Nat) : Except Failure ResponseCache := do
  let e ← c.entryAt bit
  return { c with
    cache := Keyed.without Entry.name e.name c.cache
    cacheIters := c.cacheIters.set bit none
    tensorNameToBit := bitFor c.tensorNameToBit e.name none
    bitsOutdated := true }

/-- The names by age: the least recently used gets the lowest bit. -/
def namesByAge (c : ResponseCache) : List String := (c.cache.map Entry.name).reverse

/-- `update_cache_bits`: the bits are the positions by age.  The loop writes
one iterator for each entry, so there have to be as many.  Its iterator starts
at `--cache_.end()` and is decremented behind the last write, which for the
standard is undefined where there is no entry before; it is not read there, so
it is not modelled. -/
def updateCacheBits (c : ResponseCache) : Except Failure ResponseCache :=
  if c.bitsOutdated then
    if c.cacheIters.length < c.cache.length then .error .undefined
    else .ok { c with
      cacheIters := c.namesByAge.map some
      tensorNameToBit := c.namesByAge.zipIdx.foldl (fun f x => bitFor f x.1 (some x.2))
        c.tensorNameToBit
      bitsOutdated := false }
  else .ok c

/-! ## bits and names -/

/-- Bits and names point to each other, and to one entry each. -/
structure WF (c : ResponseCache) : Prop where
  nodup : (c.cache.map Entry.name).Nodup
  bits : ∀ name bit, c.tensorNameToBit name = some bit ↔ c.cacheIters[bit]? = some (some name)
  names : ∀ name, name ∈ c.cache.map Entry.name ↔ ∃ bit, c.tensorNameToBit name = some bit
  single : ∀ e ∈ c.cache, e.response.tensorNames = [e.name]
  length_le : c.cache.length ≤ c.cacheIters.length
  compact : c.bitsOutdated = false → c.cacheIters = c.namesByAge.map some

theorem wf_empty (capacity : Nat) : (empty capacity).WF where
  nodup := List.nodup_nil
  bits := fun _ _ => by simp [empty]
  names := fun _ => by simp [empty]
  single := fun _ h => absurd h List.not_mem_nil
  length_le := Nat.le_refl 0
  compact := fun _ => rfl

variable {c c' : ResponseCache} {name : String} {bit : Nat} {params : TensorParams} {e : Entry}

theorem entryAt_eq_ok (hc : c.WF) :
    c.entryAt bit = .ok e ↔ e ∈ c.cache ∧ c.tensorNameToBit e.name = some bit := by
  constructor
  · intro h
    rw [entryAt] at h
    split at h
    · next name hbit =>
      cases hlookup : Keyed.lookup Entry.name name c.cache with
      | none => rw [hlookup] at h; cases h
      | some e' =>
          rw [hlookup] at h
          obtain rfl := Except.ok.inj h
          obtain ⟨he, rfl⟩ := (Keyed.lookup_eq_some hc.nodup).mp hlookup
          exact ⟨he, (hc.bits _ _).mpr hbit⟩
    · cases h
  · rintro ⟨he, hbit⟩
    rw [entryAt, (hc.bits _ _).mp hbit]
    simp only [(Keyed.lookup_eq_some hc.nodup).mpr ⟨he, rfl⟩, Option.elim_some]

theorem exists_bit (hc : c.WF) (he : e ∈ c.cache) :
    ∃ bit, c.tensorNameToBit e.name = some bit ∧ c.entryAt bit = .ok e := by
  obtain ⟨bit, hbit⟩ := (hc.names e.name).mp (List.mem_map_of_mem he)
  exact ⟨bit, hbit, (entryAt_eq_ok hc).mpr ⟨he, hbit⟩⟩

theorem tensorNameToBit_eq_none (hc : c.WF) (h : name ∉ c.cache.map Entry.name) :
    c.tensorNameToBit name = none := by
  rw [hc.names] at h
  exact Option.eq_none_iff_forall_ne_some.mpr fun bit hbit => h ⟨bit, hbit⟩

theorem cached_of_notMem (hc : c.WF) (h : name ∉ c.cache.map Entry.name) :
    c.cached name params = .ok .miss := by
  rw [cached, tensorNameToBit_eq_none hc h]

theorem cached_of_mem (hc : c.WF) (he : e ∈ c.cache) :
    c.cached e.name params = .ok (if e.params = params then .hit else .invalid) := by
  obtain ⟨bit, hbit, hentry⟩ := exists_bit hc he
  rw [cached, hbit]
  simp only [hentry, ok_bind]
  rfl

/-! ### erasing -/

theorem eraseResponse_eq (hc : c.WF) (he : e ∈ c.cache) (hbit : c.tensorNameToBit e.name = some bit) :
    c.eraseResponse bit = .ok { c with
      cache := Keyed.without Entry.name e.name c.cache
      cacheIters := c.cacheIters.set bit none
      tensorNameToBit := bitFor c.tensorNameToBit e.name none
      bitsOutdated := true } := by
  rw [eraseResponse, (entryAt_eq_ok hc).mpr ⟨he, hbit⟩]
  rfl

theorem wf_eraseResponse (hc : c.WF) (he : e ∈ c.cache)
    (hbit : c.tensorNameToBit e.name = some bit) (h : c.eraseResponse bit = .ok c') : c'.WF := by
  rw [eraseResponse_eq hc he hbit] at h
  obtain rfl := Except.ok.inj h
  refine ⟨Keyed.nodup_without hc.nodup, fun name b => ?_, fun name => ?_, fun x hx => ?_, ?_, ?_⟩
  · by_cases hname : name = e.name
    · subst hname
      simp only [bitFor, Function.update_self, List.getElem?_set, reduceCtorEq, false_iff]
      split
      · split <;> simp
      · next hne => exact fun h => hne (Option.some.inj (hbit.symm.trans ((hc.bits _ _).mpr h)))
    · simp only [bitFor, Function.update_of_ne hname, List.getElem?_set, hc.bits]
      split
      · next heq =>
        subst heq
        have hset := (hc.bits _ _).mp hbit
        split
        · simp [hset, Ne.symm hname]
        · next hlt => exact absurd (List.getElem?_eq_some_iff.mp hset).1 hlt
      · rfl
  · rw [Keyed.mem_map_key_without, hc.names]
    by_cases hname : name = e.name
    · simp [hname, bitFor]
    · simp [hname, bitFor]
  · exact hc.single x (Keyed.mem_without.mp hx).1
  · have hlength := Keyed.length_without hc.nodup he
    have := hc.length_le
    simp only [List.length_set]
    omega
  · exact fun h => Bool.noConfusion h

/-! ### using -/

theorem getResponse_eq (hc : c.WF) (he : e ∈ c.cache) (hbit : c.tensorNameToBit e.name = some bit) :
    c.getResponse bit = .ok (e.response,
      { c with cache := Keyed.touch Entry.name e.name c.cache, bitsOutdated := true }) := by
  rw [getResponse, (entryAt_eq_ok hc).mpr ⟨he, hbit⟩]
  rfl

theorem wf_touch (hc : c.WF) (name : String) :
    { c with cache := Keyed.touch Entry.name name c.cache, bitsOutdated := true : ResponseCache }.WF := by
  have hperm : (Keyed.touch Entry.name name c.cache).Perm c.cache := Keyed.touch_perm hc.nodup
  refine ⟨(hperm.map _).nodup_iff.mpr hc.nodup, hc.bits, fun n => ?_, fun x hx => ?_, ?_, ?_⟩
  · rw [(hperm.map _).mem_iff]
    exact hc.names n
  · exact hc.single x (hperm.mem_iff.mp hx)
  · exact hperm.length_eq.trans_le hc.length_le
  · exact fun h => Bool.noConfusion h

/-! ### the bits by age -/

theorem foldl_bitFor {l : List String} (hl : l.Nodup) (k : Nat) (f : String → Option Nat) :
    ((l.zipIdx k).foldl (fun f x => bitFor f x.1 (some x.2)) f) name = some bit ↔
      (k ≤ bit ∧ l[bit - k]? = some name) ∨ (name ∉ l ∧ f name = some bit) := by
  induction l generalizing k f with
  | nil => simp
  | cons x l ih =>
      rw [List.nodup_cons] at hl
      rw [List.zipIdx_cons, List.foldl_cons, ih hl.2]
      have hnext : ∀ b, k + 1 ≤ b → (x :: l)[b - k]? = l[b - (k + 1)]? := fun b hb => by
        rw [show b - k = b - (k + 1) + 1 by omega, List.getElem?_cons_succ]
      by_cases hname : name = x
      · subst hname
        simp only [hl.1, not_false_eq_true, true_and, bitFor, Function.update_self,
          Option.some.injEq, List.mem_cons, not_true_eq_false, false_and, or_false]
        constructor
        · rintro (⟨-, h⟩ | rfl)
          · exact absurd (List.mem_of_getElem? h) hl.1
          · exact ⟨Nat.le_refl _, by rw [Nat.sub_self, List.getElem?_cons_zero]⟩
        · rintro ⟨hle, h⟩
          rcases Nat.eq_or_lt_of_le hle with heq | hlt
          · exact .inr heq
          · rw [hnext bit hlt] at h
            exact absurd (List.mem_of_getElem? h) hl.1
      · simp only [bitFor, Function.update_of_ne hname, List.mem_cons, hname, false_or]
        constructor
        · rintro (⟨hle, h⟩ | h)
          · exact .inl ⟨by omega, by rw [hnext bit hle]; exact h⟩
          · exact .inr h
        · rintro (⟨hle, h⟩ | h)
          · rcases Nat.eq_or_lt_of_le hle with rfl | hlt
            · rw [Nat.sub_self, List.getElem?_cons_zero] at h
              exact absurd (Option.some.inj h).symm hname
            · exact .inl ⟨hlt, by rw [← hnext bit hlt]; exact h⟩
          · exact .inr h

theorem mem_namesByAge : name ∈ c.namesByAge ↔ name ∈ c.cache.map Entry.name := List.mem_reverse

/-- The bits are reassigned without a write outside the vector. -/
theorem exists_updateCacheBits (hc : c.WF) : ∃ c', c.updateCacheBits = .ok c' ∧ c'.WF ∧
    c'.bitsOutdated = false ∧ c'.cache = c.cache ∧ c'.capacity = c.capacity := by
  rw [updateCacheBits]
  cases houtdated : c.bitsOutdated with
  | false => exact ⟨c, rfl, hc, houtdated, rfl, rfl⟩
  | true =>
      have hage : c.namesByAge.Nodup := List.nodup_reverse.mpr hc.nodup
      have hold : ∀ name bit, ¬ (name ∉ c.namesByAge ∧ c.tensorNameToBit name = some bit) :=
        fun name bit h => h.1 (mem_namesByAge.mpr ((hc.names name).mpr ⟨bit, h.2⟩))
      rw [if_pos rfl, if_neg (Nat.not_lt.mpr hc.length_le)]
      refine ⟨_, rfl, ⟨hc.nodup, fun name bit => ?_, fun name => ?_, hc.single, ?_, fun _ => rfl⟩,
        rfl, rfl, rfl⟩
      · simp only [foldl_bitFor hage, hold, or_false, Nat.zero_le, true_and, Nat.sub_zero,
          List.getElem?_map, Option.map_eq_some_iff, Option.some.injEq, exists_eq_right]
      · simp only [foldl_bitFor hage, hold, or_false, Nat.zero_le, true_and, Nat.sub_zero]
        rw [← mem_namesByAge, List.mem_iff_getElem?]
      · simp [namesByAge]

/-! ### adding -/

theorem put_eq_touch (hc : c.WF) (he : e ∈ c.cache) {response : Response}
    (hname : response.tensorNames.headD "" = e.name) : c.put_ response e.params =
      .ok { c with cache := Keyed.touch Entry.name e.name c.cache, bitsOutdated := true } := by
  obtain ⟨bit, hbit, hentry⟩ := exists_bit hc he
  rw [put_, hname, cached_of_mem hc he, if_pos rfl]
  simp only [ok_bind, peekCacheBit, hbit, Option.elim_some, hentry]
  rfl

section new

variable {response : Response}

/-- A new entry next to the others takes the next bit. -/
theorem wf_append (params : TensorParams) (hc : c.WF) (hsingle : response.tensorNames = [name])
    (hnew : name ∉ c.cache.map Entry.name) :
    { c with
      cache := ⟨response, params⟩ :: c.cache
      cacheIters := c.cacheIters ++ [some name]
      tensorNameToBit := bitFor c.tensorNameToBit name (some c.cacheIters.length)
      bitsOutdated := true : ResponseCache }.WF := by
  have hentry : Entry.name ⟨response, params⟩ = name := by rw [Entry.name, hsingle, List.headD_cons]
  have hbit := tensorNameToBit_eq_none hc hnew
  refine ⟨?_, fun n b => ?_, fun n => ?_, ?_, ?_, fun h => Bool.noConfusion h⟩
  · rw [List.map_cons, hentry]
    exact List.nodup_cons.mpr ⟨hnew, hc.nodup⟩
  · by_cases hn : n = name
    · subst hn
      simp only [bitFor, Function.update_self, Option.some.injEq, List.getElem?_append]
      split
      · next hlt =>
        refine iff_of_false (by omega) fun h => ?_
        rw [(hc.bits _ _).mpr h] at hbit
        cases hbit
      · next hge =>
        rw [List.getElem?_singleton]
        split
        · exact iff_of_true (by omega) rfl
        · exact iff_of_false (by omega) (fun h => by cases h)
    · simp only [bitFor, Function.update_of_ne hn, hc.bits, List.getElem?_append]
      split
      · rfl
      · next hge =>
        rw [List.getElem?_eq_none (Nat.not_lt.mp hge), List.getElem?_singleton]
        split
        · simp [Ne.symm hn]
        · rfl
  · rw [List.map_cons, hentry, List.mem_cons, hc.names]
    by_cases hn : n = name
    · simp [hn, bitFor]
    · simp [hn, bitFor]
  · intro x hx
    rcases List.mem_cons.mp hx with rfl | hx
    · rw [hentry, hsingle]
    · exact hc.single x hx
  · simpa using hc.length_le

/-- A new entry in place of the last one inherits its bit. -/
theorem wf_evict (params : TensorParams) (hc : c.WF) {init : List Entry} {last : Entry}
    (hcache : c.cache = init ++ [last]) (hlast : c.tensorNameToBit last.name = some bit) (hsingle : response.tensorNames = [name])
    (hnew : name ∉ c.cache.map Entry.name) :
    { c with
      cache := ⟨response, params⟩ :: init
      cacheIters := c.cacheIters.set bit (some name)
      tensorNameToBit := bitFor (bitFor c.tensorNameToBit last.name none) name (some bit)
      bitsOutdated := true : ResponseCache }.WF := by
  have hentry : Entry.name ⟨response, params⟩ = name := by rw [Entry.name, hsingle, List.headD_cons]
  have hbit := tensorNameToBit_eq_none hc hnew
  have hset := (hc.bits _ _).mp hlast
  have hlt : bit < c.cacheIters.length := (List.getElem?_eq_some_iff.mp hset).1
  have hnodup := hc.nodup
  rw [hcache, List.map_append, List.mem_append, not_or, List.map_singleton,
    List.mem_singleton] at hnew
  rw [hcache, List.map_append, List.map_singleton, List.nodup_append_comm, List.singleton_append,
    List.nodup_cons] at hnodup
  refine ⟨?_, fun n b => ?_, fun n => ?_, ?_, ?_, fun h => Bool.noConfusion h⟩
  · rw [List.map_cons, hentry]
    exact List.nodup_cons.mpr ⟨hnew.1, hnodup.2⟩
  · by_cases hn : n = name
    · subst hn
      simp only [bitFor, Function.update_self, Option.some.injEq, List.getElem?_set]
      split
      · next heq => exact iff_of_true heq (by simp)
      · next hne =>
        refine iff_of_false hne fun h => ?_
        rw [(hc.bits _ _).mpr h] at hbit
        cases hbit
    · simp only [bitFor, Function.update_of_ne hn, List.getElem?_set]
      split
      · next heq =>
        subst heq
        refine iff_of_false (fun h => ?_) (by simp [Ne.symm hn])
        by_cases hl : n = last.name
        · rw [hl, Function.update_self] at h
          cases h
        · rw [Function.update_of_ne hl, hc.bits, hset] at h
          exact hl (Option.some.inj (Option.some.inj h)).symm
      · next hne =>
        by_cases hl : n = last.name
        · subst hl
          rw [Function.update_self]
          refine iff_of_false (fun h => by cases h) fun h => hne ?_
          exact Option.some.inj (hlast.symm.trans ((hc.bits _ _).mpr h))
        · rw [Function.update_of_ne hl, hc.bits]
  · rw [List.map_cons, hentry, List.mem_cons]
    by_cases hn : n = name
    · simp [hn, bitFor]
    · by_cases hl : n = last.name
      · simp only [hl, Ne.symm hnew.2, hnodup.1, bitFor, Function.update_of_ne (Ne.symm hnew.2),
          Function.update_self, false_or, reduceCtorEq, exists_false]
      · simp only [hn, bitFor, Function.update_of_ne hn, Function.update_of_ne hl, false_or]
        rw [← hc.names, hcache, List.map_append, List.mem_append, List.map_singleton,
          List.mem_singleton, or_iff_left hl]
  · intro x hx
    rcases List.mem_cons.mp hx with rfl | hx
    · rw [hentry, hsingle]
    · exact hc.single x (by rw [hcache]; exact List.mem_append_left _ hx)
  · have hle := hc.length_le
    rw [hcache, List.length_append, List.length_singleton] at hle
    simpa using hle

/-- An entry of a new name is added, in place of the least recently used one
if the cache is full. -/
theorem exists_put_new (params : TensorParams) (hc : c.WF) (hcapacity : c.capacity ≠ 0)
    (hsingle : response.tensorNames = [name]) (hnew : name ∉ c.cache.map Entry.name) :
    ∃ c', c.put_ response params = .ok c' ∧ c'.WF ∧ c'.capacity = c.capacity ∧
      c'.cache = ⟨response, params⟩ ::
        if c.cache.length = c.capacity then c.cache.dropLast else c.cache := by
  rw [put_, hsingle, List.headD_cons, cached_of_notMem hc hnew]
  simp only [ok_bind]
  by_cases hfull : c.cache.length = c.capacity
  · rcases List.eq_nil_or_concat' c.cache with hnil | ⟨init, last, hcache⟩
    · exact absurd (by rw [← hfull, hnil, List.length_nil]) hcapacity
    · obtain ⟨bit, hbit, -⟩ := exists_bit hc (show last ∈ c.cache by simp [hcache])
      refine ⟨_, ?_, wf_evict params hc hcache hbit hsingle hnew, rfl, ?_⟩
      · rw [if_pos hfull, hcache, List.getLast?_concat]
        simp only [peekCacheBit, hbit, Option.elim_some, ok_bind, List.dropLast_concat]
        rfl
      · simp only [hcache, List.dropLast_concat]
        rw [if_pos (hcache ▸ hfull)]
  · exact ⟨_, if_neg hfull, wf_append params hc hsingle hnew, rfl, by rw [if_neg hfull]⟩

end new

end ResponseCache

end ContainerHackathon.Horovod
