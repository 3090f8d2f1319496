import ContainerHackathon.Horovod.Coordination
import ContainerHackathon.Horovod.Negotiation

/-!
# Horovod.Invariant

What holds between any two steps of the ranks.  Every tensor in a table is
accounted for exactly once (`balance`): it is asked for in the queue of its
rank, among the requests that were taken out of it, at rank zero, or in a
response that is still to be performed.  The caches of all ranks, and all that
was decided so far, agree (`coherent`, `history`).
-/

namespace ContainerHackathon.Horovod

variable {n : Nat}

def Worker.tensorNames (w : Worker) : List String := w.tensorTable.map TensorTableEntry.tensorName

def requestNames (ms : List Request) : List String := ms.map Request.tensorName

def responseNames (rs : List Response) : List String := rs.flatMap Response.tensorNames

def ResponseCache.entryNames (c : ResponseCache) : List String := c.cache.map Entry.name

/-- How often rank zero has recorded a request of a rank for a tensor. -/
def State.recorded (s : State n) (r : Fin (n + 1)) (x : String) : Nat :=
  (s.messageTable x).countP fun m => m.requestRank = (r : Nat)

/-- The request of a rank for one of its tensors. -/
def Asked (r : Fin (n + 1)) (w : Worker) (m : Request) : Prop :=
  m.requestRank = r ∧ ∃ t, Keyed.lookup TensorTableEntry.tensorName m.tensorName w.tensorTable =
    some t ∧ t.params = m.params

/-- What ranks have in common of a response that is performed: for reductions,
also the types and shapes of the tensors. -/
def common (response : Response) (ts : List TensorTableEntry) : Response × List TensorInfo :=
  (response, if response.responseType.reduces then ts.map (·.params.tensor) else [])

/-- What was performed, and what will be. -/
def Worker.history (w : Worker) : List (Response × List TensorInfo) :=
  (w.performed.map fun p => common p.1 p.2) ++ w.responses.map fun r =>
    common r (r.tensorNames.filterMap fun x => Keyed.lookup TensorTableEntry.tensorName x w.tensorTable)

/-- What holds on each rank. -/
structure Worker.Inv (cfg : Config) (r : Fin (n + 1)) (w : Worker) : Prop where
  nodup : w.tensorNames.Nodup
  asked : ∀ m ∈ w.messageQueue ++ w.messages, Asked r w m
  wf : w.cache.WF
  fresh : w.cache.bitsOutdated = false
  capacity : w.cache.capacity = cfg.capacity
  bounded : w.cache.cache.length ≤ cfg.capacity
  performed : ∀ p ∈ w.performed, p.2.map TensorTableEntry.tensorName = p.1.tensorNames
  enqueued : ∀ x, w.enqueued.count x =
    (responseNames (w.performed.map Prod.fst)).count x + w.tensorNames.count x

/-- What holds of all ranks together. -/
structure Inv (cfg : Config) (s : State n) : Prop where
  worker : ∀ r, (s.workers r).Inv cfg r
  balance : ∀ r x, (requestNames (s.workers r).messageQueue).count x +
    (requestNames (s.workers r).messages).count x + s.recorded r x +
    (responseNames (s.workers r).responses).count x = (s.workers r).tensorNames.count x
  recorded : ∀ x, ∀ m ∈ s.messageTable x, m.tensorName = x ∧ ∃ r, Asked r (s.workers r) m
  short : ∀ x, (s.messageTable x).length < n + 1
  uncached : ∀ x, s.messageTable x ≠ [] → ∀ r, x ∉ (s.workers r).cache.entryNames
  coherent : ∀ r, (s.workers r).cache.Coherent (s.workers 0).cache
  history : ∀ r, (s.workers r).history = (s.workers 0).history

variable {cfg : Config} {s : State n} {r : Fin (n + 1)} {x : String} {m : Request} {w : Worker}

theorem Asked.mem (h : Asked r w m) : m.tensorName ∈ w.tensorNames := by
  obtain ⟨-, t, ht, -⟩ := h
  rw [← Keyed.key_of_lookup ht]
  exact List.mem_map_of_mem (Keyed.mem_of_lookup ht)

theorem Worker.Inv.count_le_one (h : w.Inv cfg r) (x : String) : w.tensorNames.count x ≤ 1 :=
  List.nodup_iff_count_le_one.mp h.nodup x

/-- All ranks know a cached response by the same bit. -/
theorem Inv.bits (h : Inv cfg s) (r : Fin (n + 1)) :
    (s.workers r).cache.tensorNameToBit = (s.workers 0).cache.tensorNameToBit :=
  ResponseCache.tensorNameToBit_congr (h.worker r).wf (h.worker 0).wf (h.worker r).fresh
    (h.worker 0).fresh (h.coherent r).names

end ContainerHackathon.Horovod
