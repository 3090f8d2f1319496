import ContainerHackathon.Horovod.Controller

/-!
# Horovod.Negotiation

What rank zero does with requests: a tensor is ready once every rank has asked
for it, and its response is an error unless the requests fit together.
-/

namespace ContainerHackathon.Horovod

open Fallible

/-! ## counting requests -/

section counting

variable {table : MessageTable} {size : Nat} {m : Request} {msgs : List Request} {x : String}

/-- The requests for a name, after others came in. -/
def received (table : MessageTable) (msgs : List Request) (x : String) : List Request :=
  table x ++ msgs.filter (·.tensorName = x)

theorem received_cons : received table (m :: msgs) =
    received (Function.update table m.tensorName (table m.tensorName ++ [m])) msgs := by
  funext x
  by_cases hx : m.tensorName = x
  · subst hx
    simp [received]
  · simp [received, hx, Ne.symm hx]

/-- **A name becomes ready with the last request for it**, and only once. -/
theorem addMessages_eq (h : ∀ x, (received table msgs x).length ≤ size) :
    (addMessages size table msgs).1 = received table msgs ∧
    (addMessages size table msgs).2.Nodup ∧
    ∀ x, x ∈ (addMessages size table msgs).2 ↔
      (table x).length < size ∧ (received table msgs x).length = size := by
  induction msgs generalizing table with
  | nil =>
      refine ⟨?_, List.nodup_nil, fun x => iff_of_false List.not_mem_nil fun h => ?_⟩
      · funext x
        simp [addMessages, received]
      · simp only [received, List.filter_nil, List.append_nil] at h
        omega
  | cons m msgs ih =>
      rw [received_cons] at h ⊢
      obtain ⟨htable, hnodup, hready⟩ := ih h
      have hle := h m.tensorName
      have hother : ∀ x, x ≠ m.tensorName →
          Function.update table m.tensorName (table m.tensorName ++ [m]) x = table x :=
        fun x hx => Function.update_of_ne hx _ _
      have hself : (Function.update table m.tensorName (table m.tensorName ++ [m])
          m.tensorName).length = (table m.tensorName).length + 1 := by
        rw [Function.update_self, List.length_append, List.length_singleton]
      have hlength : ∀ T : MessageTable, (T m.tensorName).length ≤
          (received T msgs m.tensorName).length := fun T => by
        rw [received, List.length_append]
        exact Nat.le_add_right _ _
      have hlt := (hlength _).trans hle
      rw [hself] at hlt
      simp only [addMessages, incrementTensorCount, decide_eq_true_eq, List.length_append,
        List.length_singleton]
      by_cases hfull : (table m.tensorName).length + 1 = size
      · -- the last request for this name
        have hfresh : m.tensorName ∉ (addMessages size
            (Function.update table m.tensorName (table m.tensorName ++ [m])) msgs).2 := fun hmem => by
          have := ((hready _).mp hmem).1
          omega
        rw [if_pos hfull]
        refine ⟨htable, List.nodup_cons.mpr ⟨hfresh, hnodup⟩, fun x => ?_⟩
        rw [List.mem_cons, hready]
        by_cases hx : x = m.tensorName
        · subst hx
          have := hlength (Function.update table m.tensorName (table m.tensorName ++ [m]))
          exact iff_of_true (.inl rfl) (by omega)
        · rw [hother x hx, or_iff_right hx]
      · rw [if_neg hfull]
        refine ⟨htable, hnodup, fun x => ?_⟩
        rw [hready]
        by_cases hx : x = m.tensorName
        · subst hx
          rw [hself]
          exact and_congr_left fun _ => by omega
        · rw [hother x hx]

end counting

/-- Everybody has been counted when as many were counted as there are. -/
theorem length_le_and_eq_iff (votes : List Nat) {k : Nat} (hlt : ∀ v ∈ votes, v < k)
    (hone : ∀ v < k, votes.count v ≤ 1) :
    votes.length ≤ k ∧ (votes.length = k ↔ ∀ v < k, votes.count v = 1) := by
  have hsum : ∑ v ∈ Finset.range k, votes.count v = votes.length := by
    have := Multiset.sum_count_eq_card (s := Finset.range k) (m := (votes : Multiset Nat))
      fun v hv => Finset.mem_range.mpr (hlt v hv)
    simpa using this
  have hcard : ∑ _v ∈ Finset.range k, 1 = k := by simp
  constructor
  · calc votes.length = ∑ v ∈ Finset.range k, votes.count v := hsum.symm
      _ ≤ ∑ _v ∈ Finset.range k, 1 := Finset.sum_le_sum fun v hv => hone v (Finset.mem_range.mp hv)
      _ = k := hcard
  · rw [← hsum]
    nth_rewrite 2 [← hcard]
    rw [Finset.sum_eq_sum_iff_of_le fun v hv => hone v (Finset.mem_range.mp hv)]
    simp only [Finset.mem_range]

/-! ## writing by rank -/

section writing

variable {β : Type} {requests : List Request}

theorem exists_foldl_writeAt (value : Request → β) (rs : List Request) (xs : List β)
    (hlt : ∀ r ∈ rs, r.requestRank < xs.length) :
    ∃ ys, rs.foldlM (writeAt value) xs = .ok ys ∧ ys.length = xs.length ∧
      (∀ i, (∀ r ∈ rs, r.requestRank ≠ i) → ys[i]? = xs[i]?) ∧
      ((rs.map Request.requestRank).Nodup → ∀ r ∈ rs, ys[r.requestRank]? = some (value r)) := by
  induction rs generalizing xs with
  | nil => exact ⟨xs, rfl, rfl, fun _ _ => rfl, fun _ _ h => absurd h List.not_mem_nil⟩
  | cons r rs ih =>
      rw [List.forall_mem_cons] at hlt
      obtain ⟨ys, hrun, hlength, hother, hset⟩ := ih (xs.set r.requestRank (value r)) fun q hq => by
        rw [List.length_set]
        exact hlt.2 q hq
      refine ⟨ys, ?_, by rw [hlength, List.length_set], fun i hi => ?_, fun hnodup => ?_⟩
      · rw [List.foldlM_cons, writeAt, if_pos hlt.1]
        exact hrun
      · rw [List.forall_mem_cons] at hi
        rw [hother i hi.2, List.getElem?_set_ne hi.1]
      · rw [List.map_cons, List.nodup_cons] at hnodup
        refine List.forall_mem_cons.mpr ⟨?_, hset hnodup.2⟩
        rw [hother _ fun q hq h => hnodup.1 (List.mem_map.mpr ⟨q, hq, h⟩), List.getElem?_set_self hlt.1]

/-- **Every rank writes its own number**, if the ranks are in range. -/
theorem exists_writeByRank (zero : β) (value : Request → β)
    (hlt : ∀ r ∈ requests, r.requestRank < requests.length) :
    ∃ xs, writeByRank zero value requests = .ok xs ∧ xs.length = requests.length ∧
      ((requests.map Request.requestRank).Nodup →
        ∀ r ∈ requests, xs[r.requestRank]? = some (value r)) := by
  obtain ⟨xs, hrun, hlength, -, hset⟩ := exists_foldl_writeAt value requests
    (List.replicate requests.length zero) (by rwa [List.length_replicate])
  exact ⟨xs, hrun, by rw [hlength, List.length_replicate], hset⟩

end writing

/-! ## requests that fit together -/

section matching

variable {first q r : Request} {requests : List Request}

/-- What is the same in the shapes of two requests for one operation. -/
def ShapesMatch (q r : Request) : Prop :=
  match q.requestType with
  | .allreduce | .adasum => q.params.tensor.shape = r.params.tensor.shape
  | .broadcast => q.params.tensor.shape = r.params.tensor.shape ∧ q.rootRank = r.rootRank
  | .allgather => q.params.tensor.shape ≠ [] ∧ r.params.tensor.shape ≠ [] ∧
      q.params.tensor.shape.tail = r.params.tensor.shape.tail

/-- Two requests can be answered together. -/
structure Matches (q r : Request) : Prop where
  dtype : q.params.tensor.dtype = r.params.tensor.dtype
  operation : q.requestType = r.requestType
  shapes : ShapesMatch q r
  device : q.params.device = cpuDeviceId ↔ r.params.device = cpuDeviceId

theorem Matches.symm (h : Matches q r) : Matches r q where
  dtype := h.dtype.symm
  operation := h.operation.symm
  shapes := by
    have hshapes := h.shapes
    rw [ShapesMatch, h.operation] at hshapes
    rw [ShapesMatch]
    cases htype : r.requestType <;> rw [htype] at hshapes
    · exact hshapes.symm
    · exact ⟨hshapes.2.1, hshapes.1, hshapes.2.2.symm⟩
    · exact ⟨hshapes.1.symm, hshapes.2.symm⟩
    · exact hshapes.symm
  device := h.device.symm

theorem Matches.trans {p : Request} (h : Matches p q) (h' : Matches q r) : Matches p r where
  dtype := h.dtype.trans h'.dtype
  operation := h.operation.trans h'.operation
  shapes := by
    have hshapes := h.shapes
    have hshapes' := h'.shapes
    rw [ShapesMatch, ← h.operation] at hshapes'
    rw [ShapesMatch] at hshapes ⊢
    cases htype : p.requestType <;> rw [htype] at hshapes hshapes'
    · exact hshapes.trans hshapes'
    · exact ⟨hshapes.1, hshapes'.2.1, hshapes.2.2.trans hshapes'.2.2⟩
    · exact ⟨hshapes.1.trans hshapes'.1, hshapes.2.trans hshapes'.2⟩
    · exact hshapes.trans hshapes'
  device := h.device.trans h'.device

theorem firstMismatch_eq_none {mismatch : Request → Option String} :
    firstMismatch requests mismatch = none ↔ ∀ r ∈ requests.tail, mismatch r = none := by
  rw [firstMismatch, List.findSome?_eq_none_iff]

theorem typeMismatch_eq_none : typeMismatch first requests = none ↔
    ∀ r ∈ requests.tail, first.params.tensor.dtype = r.params.tensor.dtype := by
  simp [typeMismatch, firstMismatch_eq_none]

theorem operationMismatch_eq_none : operationMismatch first requests = none ↔
    ∀ r ∈ requests.tail, first.requestType = r.requestType := by
  simp [operationMismatch, firstMismatch_eq_none]

theorem shapeMismatch_eq_none : shapeMismatch first requests = none ↔
    ∀ r ∈ requests.tail, first.params.tensor.shape = r.params.tensor.shape := by
  simp [shapeMismatch, firstMismatch_eq_none]

theorem rootMismatch_eq_none : rootMismatch first requests = none ↔
    ∀ r ∈ requests.tail, first.rootRank = r.rootRank := by
  simp [rootMismatch, firstMismatch_eq_none]

theorem deviceMismatch_eq_none : deviceMismatch first requests = none ↔
    ∀ r ∈ requests.tail, (first.params.device = cpuDeviceId ↔ r.params.device = cpuDeviceId) := by
  simp [deviceMismatch, firstMismatch_eq_none]

/-- The loop over the dimensions compares the tails. -/
theorem tail_eq_tail_iff {xs ys : List Nat} (h : xs.length = ys.length) :
    ((List.range' 1 (xs.length - 1)).find? fun dim => xs[dim]? ≠ ys[dim]?) = none ↔
      xs.tail = ys.tail := by
  simp only [List.find?_eq_none, List.mem_range'_1, ne_eq, decide_not, Bool.not_eq_eq_eq_not,
    Bool.not_true, decide_eq_false_iff_not, not_not]
  constructor
  · intro hdims
    refine List.ext_getElem? fun i => ?_
    rw [List.getElem?_tail, List.getElem?_tail]
    by_cases hi : i + 1 < xs.length
    · exact hdims (i + 1) (by omega)
    · rw [List.getElem?_eq_none (Nat.not_lt.mp hi), List.getElem?_eq_none (h ▸ Nat.not_lt.mp hi)]
  · intro htail dim hdim
    obtain ⟨i, rfl⟩ : ∃ i, dim = i + 1 := ⟨dim - 1, by omega⟩
    rw [← List.getElem?_tail, ← List.getElem?_tail, htail]

theorem gatherMismatch_eq_none (hne : first.params.tensor.shape ≠ []) :
    gatherMismatch first requests = none ↔ ∀ r ∈ requests.tail,
      r.params.tensor.shape ≠ [] ∧ first.params.tensor.shape.tail = r.params.tensor.shape.tail := by
  rw [gatherMismatch, firstMismatch_eq_none]
  refine forall₂_congr fun r _ => ?_
  simp only
  by_cases hlength : first.params.tensor.shape.length = r.params.tensor.shape.length
  · have hne' : r.params.tensor.shape ≠ [] := fun h => by
      rw [h, List.length_nil, List.length_eq_zero_iff] at hlength
      exact hne hlength
    rw [if_neg (not_not.mpr hlength), Option.map_eq_none_iff, tail_eq_tail_iff hlength]
    exact ⟨fun h => ⟨hne', h⟩, fun h => h.2⟩
  · rw [if_pos hlength]
    refine iff_of_false (by simp) fun h => hlength ?_
    have htail := congrArg List.length h.2
    rw [List.length_tail, List.length_tail] at htail
    have hpos := List.length_pos_of_ne_nil h.1
    have hpos' := List.length_pos_of_ne_nil hne
    omega

theorem forall_matches_iff : (∀ r ∈ requests, Matches first r) ↔
    (∀ r ∈ requests, first.params.tensor.dtype = r.params.tensor.dtype) ∧
    (∀ r ∈ requests, first.requestType = r.requestType) ∧
    (∀ r ∈ requests, ShapesMatch first r) ∧
    ∀ r ∈ requests, (first.params.device = cpuDeviceId ↔ r.params.device = cpuDeviceId) :=
  ⟨fun h => ⟨fun r hr => (h r hr).dtype, fun r hr => (h r hr).operation,
    fun r hr => (h r hr).shapes, fun r hr => (h r hr).device⟩,
    fun h r hr => ⟨h.1 r hr, h.2.1 r hr, h.2.2.1 r hr, h.2.2.2 r hr⟩⟩

/-- The first request fits together with itself unless it gathers a tensor
without dimensions. -/
theorem matches_self : Matches first first ↔
    (first.requestType = .allgather → first.params.tensor.shape ≠ []) := by
  refine ⟨fun h htype => ?_, fun h => ⟨rfl, rfl, ?_, Iff.rfl⟩⟩
  · have hshapes := h.shapes
    rw [ShapesMatch, htype] at hshapes
    exact hshapes.1
  · rw [ShapesMatch]
    cases htype : first.requestType
    · rfl
    · exact ⟨h htype, h htype, rfl⟩
    · exact ⟨rfl, rfl⟩
    · rfl

/-- **The checks pass if the first request fits together with each**, itself
included. -/
theorem checkRequests_eq_none : checkRequests first (first :: requests) = none ↔
    ∀ r ∈ first :: requests, Matches first r := by
  rw [List.forall_mem_cons, forall_matches_iff, matches_self, checkRequests]
  simp only [Option.or_eq_none_iff, deviceMismatch_eq_none, List.tail_cons]
  cases htype : first.requestType with
  | allreduce | adasum =>
      simp only [Option.or_eq_none_iff, typeMismatch_eq_none, operationMismatch_eq_none,
        shapeMismatch_eq_none, List.tail_cons, ShapesMatch, htype]
      simp only [reduceCtorEq, false_implies, true_and, and_assoc]
  | broadcast =>
      simp only [Option.or_eq_none_iff, typeMismatch_eq_none, operationMismatch_eq_none,
        shapeMismatch_eq_none, rootMismatch_eq_none, List.tail_cons, ShapesMatch, htype,
        forall_and]
      simp only [reduceCtorEq, false_implies, true_and, and_assoc]
  | allgather =>
      simp only [Option.or_eq_none_iff, scalarGather]
      by_cases hscalar : first.params.tensor.shape = []
      · simp [hscalar]
      · rw [if_neg hscalar, gatherMismatch_eq_none hscalar]
        simp only [Option.or_eq_none_iff, typeMismatch_eq_none, operationMismatch_eq_none,
          List.tail_cons, ShapesMatch, htype, ne_eq, hscalar, not_false_eq_true, true_and, true_implies,
          and_assoc]

/-- **The response of requests that came from all ranks**: it is an error
unless any two of them fit together, and has what each rank wants at the index
of its rank. -/
theorem exists_constructResponse (name : String) (hne : requests ≠ [])
    (hlt : ∀ r ∈ requests, r.requestRank < requests.length)
    (hnodup : (requests.map Request.requestRank).Nodup) :
    ∃ response, constructResponse name requests = .ok response ∧ response.tensorNames = [name] ∧
      (response.responseType ≠ .error ↔ ∀ q ∈ requests, ∀ r ∈ requests, Matches q r) ∧
      (response.responseType ≠ .error →
        ∀ r ∈ requests, response.responseType = r.requestType.response) ∧
      (∀ r ∈ requests, response.devices[r.requestRank]? = some r.params.device) ∧
      response.devices.length = requests.length ∧
      (response.responseType = .allgather → response.tensorSizes.length = requests.length ∧
        ∀ r ∈ requests,
          response.tensorSizes[r.requestRank]? = some (r.params.tensor.shape.headD 0)) ∧
      (response.responseType ≠ .allgather → response.tensorSizes = []) := by
  obtain ⟨devices, hdevices, hlength, hwritten⟩ :=
    exists_writeByRank 0 (fun r => r.params.device) hlt
  obtain ⟨sizes, hsizes, hsizesLength, hsized⟩ :=
    exists_writeByRank 0 (fun r => r.params.tensor.shape.headD 0) hlt
  cases requests with
  | nil => exact absurd rfl hne
  | cons first rest =>
      rw [constructResponse, hdevices]
      simp only [ok_bind]
      cases hcheck : checkRequests first (first :: rest) with
      | some message =>
          refine ⟨_, rfl, rfl, iff_of_false (fun h => h rfl) fun h => ?_, fun h => absurd rfl h,
            hwritten hnodup, hlength, (fun h => by cases h), fun _ => rfl⟩
          rw [checkRequests_eq_none.mpr (h first List.mem_cons_self)] at hcheck
          cases hcheck
      | none =>
          have hmatch := checkRequests_eq_none.mp hcheck
          have hall : ∀ q ∈ first :: rest, ∀ r ∈ first :: rest, Matches q r :=
            fun q hq r hr => (hmatch q hq).symm.trans (hmatch r hr)
          have hoperation : ∀ r ∈ first :: rest,
              first.requestType.response = r.requestType.response :=
            fun r hr => congrArg RequestType.response (hmatch r hr).operation
          by_cases htype : first.requestType = .allgather
          · rw [if_pos htype, hsizes]
            refine ⟨_, rfl, rfl, iff_of_true ?_ hall, fun _ => hoperation, hwritten hnodup, hlength,
              fun _ => ⟨hsizesLength, hsized hnodup⟩, fun h => absurd ?_ h⟩
            · simp only [htype, RequestType.response, ne_eq, reduceCtorEq, not_false_eq_true]
            · simp only [htype, RequestType.response]
          · rw [if_neg htype]
            refine ⟨_, rfl, rfl, iff_of_true ?_ hall, fun _ => hoperation, hwritten hnodup, hlength,
              fun h => ?_, fun _ => rfl⟩
            · cases htype' : first.requestType <;> simp [RequestType.response]
            · cases htype' : first.requestType <;> simp [RequestType.response, htype'] at h htype

end matching

/-- One request of each rank, for all ranks. -/
structure FromAll (requests : List Request) : Prop where
  nonempty : requests ≠ []
  lt : ∀ r ∈ requests, r.requestRank < requests.length
  nodup : (requests.map Request.requestRank).Nodup

theorem FromAll.perm {requests requests' : List Request} (h : FromAll requests)
    (hperm : requests.Perm requests') : FromAll requests' where
  nonempty := fun hnil => h.nonempty (hnil ▸ hperm).eq_nil
  lt := fun r hr => hperm.length_eq ▸ h.lt r (hperm.mem_iff.mpr hr)
  nodup := (hperm.map _).nodup_iff.mp h.nodup

/-- There is a request of each rank. -/
theorem FromAll.exists_rank {requests : List Request} (h : FromAll requests) {i : Nat}
    (hi : i < requests.length) : ∃ r ∈ requests, r.requestRank = i := by
  have hvotes := length_le_and_eq_iff (requests.map Request.requestRank)
    (List.forall_mem_map.mpr h.lt) fun v _ => List.nodup_iff_count_le_one.mp h.nodup v
  have hone := hvotes.2.mp (List.length_map _) i hi
  exact List.mem_map.mp (List.count_pos_iff.mp (by rw [hone]; exact Nat.one_pos))

/-- Lists are the same when each rank has written the same at its index. -/
theorem FromAll.ext {β : Type} {requests : List Request} (h : FromAll requests) {xs ys : List β}
    (hxs : xs.length = requests.length) (hys : ys.length = requests.length)
    (hsame : ∀ r ∈ requests, xs[r.requestRank]? = ys[r.requestRank]?) : xs = ys := by
  refine List.ext_getElem? fun i => ?_
  by_cases hi : i < requests.length
  · obtain ⟨r, hr, rfl⟩ := h.exists_rank hi
    exact hsame r hr
  · rw [List.getElem?_eq_none (by omega), List.getElem?_eq_none (by omega)]

/-- **The order in which requests arrive does not matter**, but for the text of
an error.  A gathered tensor without dimensions matches nothing, not even
itself, so it is an error also if all ranks gather the same. -/
theorem constructResponse_perm (name : String) {requests requests' : List Request}
    (h : FromAll requests) (hperm : requests.Perm requests') : ∃ response response',
    constructResponse name requests = .ok response ∧
    constructResponse name requests' = .ok response' ∧
    (response.responseType = .error ↔ ∃ q ∈ requests, ∃ r ∈ requests, ¬ Matches q r) ∧
    response'.responseType = response.responseType ∧ response'.devices = response.devices ∧
    response'.tensorSizes = response.tensorSizes := by
  have h' := h.perm hperm
  obtain ⟨response, hrun, -, hmatch, htype, hdevices, hlength, hgather, hother⟩ :=
    exists_constructResponse name h.nonempty h.lt h.nodup
  obtain ⟨response', hrun', -, hmatch', htype', hdevices', hlength', hgather', hother'⟩ :=
    exists_constructResponse name h'.nonempty h'.lt h'.nodup
  simp only [← hperm.mem_iff, ← hperm.length_eq] at hmatch' htype' hdevices' hlength' hgather'
  have htypes : response'.responseType = response.responseType := by
    by_cases herror : response.responseType = .error
    · rw [herror]
      by_contra hne
      exact hmatch.mpr (hmatch'.mp hne) herror
    · obtain ⟨r, hr⟩ := List.exists_mem_of_ne_nil _ h.nonempty
      rw [htype herror r hr, htype' (hmatch'.mpr (hmatch.mp herror)) r hr]
  refine ⟨response, response', hrun, hrun', ?_, htypes, ?_, ?_⟩
  · rw [← not_iff_not, ← ne_eq, hmatch]
    push Not
    rfl
  · exact h.ext hlength' hlength fun r hr => (hdevices' r hr).trans (hdevices r hr).symm
  · by_cases hall : response.responseType = .allgather
    · obtain ⟨hsizes, hwritten⟩ := hgather hall
      obtain ⟨hsizes', hwritten'⟩ := hgather' (htypes.trans hall)
      exact h.ext hsizes' hsizes fun r hr => (hwritten' r hr).trans (hwritten r hr).symm
    · rw [hother hall, hother' (by rwa [htypes])]

/-- The requests of two ranks that gather tensors of different lengths. -/
def sampleRequests : List Request :=
  [⟨0, .allgather, ⟨⟨.int32, [2, 5]⟩, cpuDeviceId⟩, 0, "rows"⟩,
    ⟨1, .allgather, ⟨⟨.int32, [7, 5]⟩, cpuDeviceId⟩, 0, "rows"⟩]

theorem constructResponse_perm_sampleRequests : ∃ response response',
    constructResponse "rows" sampleRequests = .ok response ∧
    constructResponse "rows" sampleRequests.reverse = .ok response' ∧
    (response.responseType = .error ↔
      ∃ q ∈ sampleRequests, ∃ r ∈ sampleRequests, ¬ Matches q r) ∧
    response'.responseType = response.responseType ∧ response'.devices = response.devices ∧
    response'.tensorSizes = response.tensorSizes :=
  constructResponse_perm "rows" ⟨by simp [sampleRequests], by decide, by decide⟩
    (List.reverse_perm sampleRequests).symm

example : (constructResponse "rows" sampleRequests.reverse).map (·.tensorSizes) = .ok [2, 7] := by
  rfl

/-- **A response for each tensor that is ready**, and its requests are
forgotten. -/
theorem exists_constructResponses {table : MessageTable} {names : List String} (hnodup : names.Nodup)
    (h : ∀ x ∈ names, FromAll (table x)) :
    ∃ responses, constructResponses table names =
        .ok (responses, fun x => if x ∈ names then [] else table x) ∧
      responses.flatMap Response.tensorNames = names ∧
      ∀ r ∈ responses, ∃ x ∈ names, constructResponse x (table x) = .ok r := by
  induction names generalizing table with
  | nil => exact ⟨[], by simp [constructResponses], rfl, fun r hr => absurd hr List.not_mem_nil⟩
  | cons name names ih =>
      rw [List.forall_mem_cons] at h
      rw [List.nodup_cons] at hnodup
      have hother : ∀ x ∈ names, Function.update table name [] x = table x := fun x hx =>
        Function.update_of_ne (fun heq => hnodup.1 (by rwa [← heq])) _ _
      obtain ⟨response, hresponse, hname, -⟩ :=
        exists_constructResponse name h.1.nonempty h.1.lt h.1.nodup
      have hrest : ∀ x ∈ names, FromAll (Function.update table name [] x) := fun x hx => by
        rw [hother x hx]
        exact h.2 x hx
      obtain ⟨responses, hrun, hnames, hall⟩ := ih hnodup.2 hrest
      refine ⟨response :: responses, ?_, ?_, List.forall_mem_cons.mpr ⟨?_, fun r hr => ?_⟩⟩
      · rw [constructResponses, hresponse]
        simp only [ok_bind, hrun]
        congr 3
        funext x
        by_cases hx : x = name <;> simp [hx]
      · rw [List.flatMap_cons, hname, hnames, List.singleton_append]
      · exact ⟨name, List.mem_cons_self, hresponse⟩
      · obtain ⟨x, hx, hr⟩ := hall r hr
        rw [hother x hx] at hr
        exact ⟨x, List.mem_cons_of_mem name hx, hr⟩

end ContainerHackathon.Horovod
