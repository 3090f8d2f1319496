import ContainerHackathon.Lib.Gather
import ContainerHackathon.PyStager.Commands
import ContainerHackathon.PyStager.Distributor

/-!
# PyStager.Protocol

The distributed run: the master (rank 0) and the workers (ranks `1 .. p-1`)
as one transition system.  A rank is a program counter with the variables
of the loop it is in; a message is in flight from the moment it is sent
until it is received.  `comm.send` does not wait for the receiver, and
`comm.recv` takes the oldest message of any sender that has one in flight,
so a label of the master names the sender it takes from.

The protocol starts behind the master's scan.  What the outside world
decides is in `Config`: which ranks find the source directory, whether the
master gets through its scan, and for every job the exit status of its
`rsync`, the outcome of its checksum comparison and the exceptions of the
two.  An exception ends its rank without a word to the others.
-/

namespace ContainerHackathon.PyStager

open Transition

/-! ## configuration -/

/-- How the commands of one job turn out. -/
structure Outcome where
  /-- what `os.system(rsync_str)` returns -/
  rsync : Int
  /-- whether the two hash texts have the same digest -/
  identical : Bool
  /-- the exception of `hash_directory` on the source -/
  sourceRaises : Option PyError
  /-- the exception of `hash_directory` on the destination, or of what follows it -/
  destinationRaises : Option PyError
  deriving DecidableEq, Repr

structure Config where
  p : Nat
  params : Params
  /-- What `directory_scanner` returns, if it does. -/
  scan : ScanResult
  /-- The exception of `directory_scanner` or `data_structure_builder`. -/
  masterRaises : Option PyError
  /-- `os.path.exists(source_dir)` as evaluated by each rank. -/
  sees : Nat → Bool
  /-- Outcome of the job with a given `job_count` on a given rank. -/
  outcome : Nat → Nat → Outcome

namespace Config

def items (c : Config) : List String := c.scan.listItemsToProcess

/-- `ret_load_balancer`: scanner, builder and distributor, one after the
other. -/
def transferDict (c : Config) : Except PyError TransferDict :=
  match c.masterRaises with
  | some e => .error e
  | none => loadDistributor c.scan c.params.loadLevel c.p

/-- `transfer_dict[nodes]`, the message for worker `w`. -/
def message (c : Config) (w : Nat) : Option String :=
  match c.transferDict with
  | .ok transferDict => (transferDict w).getD none
  | .error _ => none

/-- The exception that ends rank `w` in job number `jobCount`.  The source
is hashed before the transfer, also if there is none. -/
def raises (c : Config) (w jobCount : Nat) : Option PyError :=
  if c.params.checksumStatus = 1 ∧ c.params.loadLevel = .directory then
    match (c.outcome w jobCount).sourceRaises with
    | some e => some e
    | none => if c.params.rsyncStatus = 1 then (c.outcome w jobCount).destinationRaises else none
  else none

end Config

/-! ## messages and records -/

/-- What a worker sends to the master. -/
inductive Notice
  | idle (rank : Nat)
  | finished (rank : Nat) (rsyncStr : String)
  deriving DecidableEq, Repr

/-- The master's two receive loops. -/
inductive RecvLoop
  | idle
  | complete
  deriving DecidableEq, Repr

/-- One processed job: the exit status of `os.system(rsync_str)` and the
verdict of the hash comparison, where these were run at all. -/
structure Job where
  rank : Nat
  name : String
  rsync : Option Int
  identical : Option Bool
  deriving DecidableEq, Repr

/-- The body of a worker's job loop, gone through.  The status of the command and the
verdict of the comparison are dropped: neither is stored nor sent. -/
def processJob (c : Config) (rank jobCount : Nat) (job : String) : Job :=
  let transfers := c.params.rsyncStatus = 1
  let compares := transfers ∧ c.params.checksumStatus = 1 ∧ c.params.loadLevel = .directory
  { rank := rank
    name := job
    rsync := if transfers then some (c.outcome rank jobCount).rsync else none
    identical := if compares then some (c.outcome rank jobCount).identical else none }

/-! ## states -/

inductive MasterPc
  /-- before the existence check -/
  | check
  /-- `for nodes in range(1, p)`, about to test `nodes` -/
  | send (nodes : Nat)
  /-- `while idle_counter > 1` -/
  | idle (idleCounter : Int)
  /-- `while message_counter <= len(list_items_to_process)` -/
  | complete (messageCounter : Nat)
  /-- logged 'PyStager is done' and 'exit status : 0' -/
  | done
  /-- logged 'The source does not exist' and 'exit status : 1' -/
  | exit1
  /-- died of an exception in the scanner, the builder or the distributor -/
  | raised (e : PyError)
  deriving DecidableEq, Repr

inductive WorkerPc
  | check
  | recv
  | reportIdle
  /-- `for job_count in range(0, len(job_list))`, about to test `job_count` -/
  | job (jobList : List String) (jobCount : Nat)
  /-- the job is processed, its completion message not yet sent -/
  | report (jobList : List String) (jobCount : Nat) (rsyncStr : String)
  | finished
  | exit1
  /-- died of an exception in a job -/
  | raised (e : PyError)
  deriving DecidableEq, Repr

/-- `inbox w` is in flight from the master to `w`, `outbox w` from `w` to
the master.  `log` and `processed` record what the master consumed in which
loop and which jobs a worker went through. -/
structure State where
  master : MasterPc
  worker : Nat → WorkerPc
  inbox : Nat → List (Option String)
  outbox : Nat → List Notice
  log : List (RecvLoop × Nat × Notice)
  processed : Nat → List Job

def initState : State where
  master := .check
  worker := fun _ => .check
  inbox := fun _ => []
  outbox := fun _ => []
  log := []
  processed := fun _ => []

/-! ## steps -/

/-- Take the oldest message in flight from `source`. -/
def State.receive (s : State) (loop : RecvLoop) (source : Nat) (next : MasterPc) : Option State :=
  match s.outbox source with
  | [] => none
  | m :: ms => some { s with
      master := next
      outbox := Function.update s.outbox source ms
      log := s.log ++ [(loop, source, m)] }

def masterStep (c : Config) (source : Nat) (s : State) : Option State :=
  match s.master with
  | .check =>
      if c.sees 0 then
        match c.transferDict with
        | .ok _ => some { s with master := .send 1 }
        | .error e => some { s with master := .raised e }
      else some { s with master := .exit1 }
  | .send nodes =>
      if nodes < c.p then some { s with
        master := .send (nodes + 1)
        inbox := Function.update s.inbox nodes (s.inbox nodes ++ [c.message nodes]) }
      else some { s with master := .idle ((c.p : Int) - c.items.length) }
  | .idle idleCounter =>
      if 1 < idleCounter then s.receive .idle source (.idle (idleCounter - 1))
      else some { s with master := .complete 1 }
  | .complete messageCounter =>
      if messageCounter ≤ c.items.length then
        s.receive .complete source (.complete (messageCounter + 1))
      else some { s with master := .done }
  | .done | .exit1 | .raised _ => none

def State.goto (s : State) (w : Nat) (pc : WorkerPc) : State :=
  { s with worker := Function.update s.worker w pc }

def State.post (s : State) (w : Nat) (notice : Notice) : State :=
  { s with outbox := Function.update s.outbox w (s.outbox w ++ [notice]) }

def State.record (s : State) (w : Nat) (job : Job) : State :=
  { s with processed := Function.update s.processed w (s.processed w ++ [job]) }

def State.consume (s : State) (w : Nat) (rest : List (Option String)) : State :=
  { s with inbox := Function.update s.inbox w rest }

/- What the four updates of a worker's step do, field by field. -/

@[simp, grind =] theorem goto_master (s : State) (w : Nat) (pc : WorkerPc) :
    (s.goto w pc).master = s.master := rfl

@[simp, grind =] theorem goto_worker (s : State) (w v : Nat) (pc : WorkerPc) :
    (s.goto w pc).worker v = if v = w then pc else s.worker v :=
  Function.update_apply ..

@[simp, grind =] theorem goto_inbox (s : State) (w v : Nat) (pc : WorkerPc) :
    (s.goto w pc).inbox v = s.inbox v := rfl

@[simp, grind =] theorem goto_outbox (s : State) (w v : Nat) (pc : WorkerPc) :
    (s.goto w pc).outbox v = s.outbox v := rfl

@[simp, grind =] theorem goto_log (s : State) (w : Nat) (pc : WorkerPc) :
    (s.goto w pc).log = s.log := rfl

@[simp, grind =] theorem goto_processed (s : State) (w v : Nat) (pc : WorkerPc) :
    (s.goto w pc).processed v = s.processed v := rfl

@[simp, grind =] theorem post_master (s : State) (w : Nat) (notice : Notice) :
    (s.post w notice).master = s.master := rfl

@[simp, grind =] theorem post_worker (s : State) (w v : Nat) (notice : Notice) :
    (s.post w notice).worker v = s.worker v := rfl

@[simp, grind =] theorem post_inbox (s : State) (w v : Nat) (notice : Notice) :
    (s.post w notice).inbox v = s.inbox v := rfl

@[simp, grind =] theorem post_outbox (s : State) (w v : Nat) (notice : Notice) :
    (s.post w notice).outbox v = if v = w then s.outbox w ++ [notice] else s.outbox v :=
  Function.update_apply ..

@[simp, grind =] theorem post_log (s : State) (w : Nat) (notice : Notice) :
    (s.post w notice).log = s.log := rfl

@[simp, grind =] theorem post_processed (s : State) (w v : Nat) (notice : Notice) :
    (s.post w notice).processed v = s.processed v := rfl

@[simp, grind =] theorem record_master (s : State) (w : Nat) (job : Job) :
    (s.record w job).master = s.master := rfl

@[simp, grind =] theorem record_worker (s : State) (w v : Nat) (job : Job) :
    (s.record w job).worker v = s.worker v := rfl

@[simp, grind =] theorem record_inbox (s : State) (w v : Nat) (job : Job) :
    (s.record w job).inbox v = s.inbox v := rfl

@[simp, grind =] theorem record_outbox (s : State) (w v : Nat) (job : Job) :
    (s.record w job).outbox v = s.outbox v := rfl

@[simp, grind =] theorem record_log (s : State) (w : Nat) (job : Job) :
    (s.record w job).log = s.log := rfl

@[simp, grind =] theorem record_processed (s : State) (w v : Nat) (job : Job) :
    (s.record w job).processed v = if v = w then s.processed w ++ [job] else s.processed v :=
  Function.update_apply ..

@[simp, grind =] theorem consume_master (s : State) (w : Nat) (rest : List (Option String)) :
    (s.consume w rest).master = s.master := rfl

@[simp, grind =] theorem consume_worker (s : State) (w v : Nat) (rest : List (Option String)) :
    (s.consume w rest).worker v = s.worker v := rfl

@[simp, grind =] theorem consume_inbox (s : State) (w v : Nat) (rest : List (Option String)) :
    (s.consume w rest).inbox v = if v = w then rest else s.inbox v :=
  Function.update_apply ..

@[simp, grind =] theorem consume_outbox (s : State) (w v : Nat) (rest : List (Option String)) :
    (s.consume w rest).outbox v = s.outbox v := rfl

@[simp, grind =] theorem consume_log (s : State) (w : Nat) (rest : List (Option String)) :
    (s.consume w rest).log = s.log := rfl

@[simp, grind =] theorem consume_processed (s : State) (w v : Nat) (rest : List (Option String)) :
    (s.consume w rest).processed v = s.processed v := rfl

def workerStep (c : Config) (w : Nat) (s : State) : Option State :=
  match s.worker w with
  | .check => some (s.goto w (if c.sees w then .recv else .exit1))
  | .recv =>
      match s.inbox w with
      | [] => none
      | messageIn :: rest =>
          match messageIn with
          | none => some ((s.consume w rest).goto w .reportIdle)
          | some text => some ((s.consume w rest).goto w (.job (Delimited.split ';' text) 0))
  | .reportIdle => some ((s.post w (.idle w)).goto w .finished)
  | .job jobList jobCount =>
      match jobList[jobCount]? with
      | none => some (s.goto w .finished)
      | some job =>
          match c.raises w jobCount with
          | some e => some (s.goto w (.raised e))
          | none => some ((s.record w (processJob c w jobCount job)).goto w
              (.report jobList jobCount (rsyncStr c.params job)))
  | .report jobList jobCount rsyncStr =>
      some ((s.post w (.finished w rsyncStr)).goto w (.job jobList (jobCount + 1)))
  | .finished | .exit1 | .raised _ => none

/-- Who moves; for the master also whose message it takes, if it receives. -/
inductive Move
  | master (source : Nat)
  | worker (rank : Nat)
  deriving DecidableEq, Repr

def step (c : Config) : Move → State → Option State
  | .master source, s => masterStep c source s
  | .worker w, s => if 1 ≤ w ∧ w < c.p then workerStep c w s else none

def system (c : Config) : System State Move where
  init s := s = initState
  step := step c

/-! ## what a step can do -/

/-- The transitions, one constructor for each way through `step`. -/
inductive Trans (c : Config) (s : State) : State → Prop
  | masterExits (hm : s.master = .check) (hs : c.sees 0 = false) :
      Trans c s { s with master := .exit1 }
  | masterRaises {e} (hm : s.master = .check) (hs : c.sees 0 = true)
      (hd : c.transferDict = .error e) : Trans c s { s with master := .raised e }
  | masterStarts {d} (hm : s.master = .check) (hs : c.sees 0 = true)
      (hd : c.transferDict = .ok d) : Trans c s { s with master := .send 1 }
  | send {k} (hm : s.master = .send k) (hk : k < c.p) : Trans c s { s with
      master := .send (k + 1)
      inbox := Function.update s.inbox k (s.inbox k ++ [c.message k]) }
  | sendsDone {k} (hm : s.master = .send k) (hk : c.p ≤ k) :
      Trans c s { s with master := .idle ((c.p : Int) - c.items.length) }
  | idleRecv {k w m ms} (hm : s.master = .idle k) (hk : 1 < k) (ho : s.outbox w = m :: ms) :
      Trans c s { s with
        master := .idle (k - 1)
        outbox := Function.update s.outbox w ms
        log := s.log ++ [(.idle, w, m)] }
  | idleDone {k} (hm : s.master = .idle k) (hk : k ≤ 1) :
      Trans c s { s with master := .complete 1 }
  | completeRecv {k w m ms} (hm : s.master = .complete k) (hk : k ≤ c.items.length)
      (ho : s.outbox w = m :: ms) : Trans c s { s with
        master := .complete (k + 1)
        outbox := Function.update s.outbox w ms
        log := s.log ++ [(.complete, w, m)] }
  | completeDone {k} (hm : s.master = .complete k) (hk : c.items.length < k) :
      Trans c s { s with master := .done }
  | workerExits {w} (hw : 1 ≤ w ∧ w < c.p) (hc : s.worker w = .check) (hs : c.sees w = false) :
      Trans c s (s.goto w .exit1)
  | workerStarts {w} (hw : 1 ≤ w ∧ w < c.p) (hc : s.worker w = .check) (hs : c.sees w = true) :
      Trans c s (s.goto w .recv)
  | recvIdle {w ms} (hw : 1 ≤ w ∧ w < c.p) (hc : s.worker w = .recv)
      (hi : s.inbox w = none :: ms) :
      Trans c s ((s.consume w ms).goto w .reportIdle)
  | recvJobs {w text ms} (hw : 1 ≤ w ∧ w < c.p) (hc : s.worker w = .recv)
      (hi : s.inbox w = some text :: ms) :
      Trans c s ((s.consume w ms).goto w (.job (Delimited.split ';' text) 0))
  | sendIdle {w} (hw : 1 ≤ w ∧ w < c.p) (hc : s.worker w = .reportIdle) :
      Trans c s ((s.post w (.idle w)).goto w .finished)
  | process {w jobs k job} (hw : 1 ≤ w ∧ w < c.p) (hc : s.worker w = .job jobs k)
      (hj : jobs[k]? = some job) (hr : c.raises w k = none) :
      Trans c s ((s.record w (processJob c w k job)).goto w
        (.report jobs k (rsyncStr c.params job)))
  | jobRaises {w jobs k job e} (hw : 1 ≤ w ∧ w < c.p) (hc : s.worker w = .job jobs k)
      (hj : jobs[k]? = some job) (hr : c.raises w k = some e) :
      Trans c s (s.goto w (.raised e))
  | jobsDone {w jobs k} (hw : 1 ≤ w ∧ w < c.p) (hc : s.worker w = .job jobs k)
      (hj : jobs.length ≤ k) : Trans c s (s.goto w .finished)
  | sendFinished {w jobs k text} (hw : 1 ≤ w ∧ w < c.p) (hc : s.worker w = .report jobs k text) :
      Trans c s ((s.post w (.finished w text)).goto w (.job jobs (k + 1)))

theorem exists_of_receive {s s' : State} {loop : RecvLoop} {source : Nat} {next : MasterPc}
    (h : s.receive loop source next = some s') : ∃ m ms, s.outbox source = m :: ms ∧
      s' = { s with
        master := next
        outbox := Function.update s.outbox source ms
        log := s.log ++ [(loop, source, m)] } := by
  unfold State.receive at h
  split at h
  · cases h
  · next m ms ho => exact ⟨m, ms, ho, (Option.some.inj h).symm⟩

theorem trans_of_masterStep {c : Config} {source : Nat} {s s' : State}
    (h : masterStep c source s = some s') : Trans c s s' := by
  unfold masterStep at h
  split at h
  · next hm =>
    split at h
    · next hs =>
      split at h
      · next d hd => obtain rfl := Option.some.inj h; exact .masterStarts hm hs hd
      · next e hd => obtain rfl := Option.some.inj h; exact .masterRaises hm hs hd
    · next hs =>
      obtain rfl := Option.some.inj h
      exact .masterExits hm (by simpa using hs)
  · next k hm =>
    split at h
    · next hk => obtain rfl := Option.some.inj h; exact .send hm hk
    · next hk => obtain rfl := Option.some.inj h; exact .sendsDone hm (Nat.le_of_not_lt hk)
  · next k hm =>
    split at h
    · next hk =>
      obtain ⟨m, ms, ho, rfl⟩ := exists_of_receive h
      exact .idleRecv hm hk ho
    · next hk => obtain rfl := Option.some.inj h; exact .idleDone hm (by omega)
  · next k hm =>
    split at h
    · next hk =>
      obtain ⟨m, ms, ho, rfl⟩ := exists_of_receive h
      exact .completeRecv hm hk ho
    · next hk => obtain rfl := Option.some.inj h; exact .completeDone hm (by omega)
  all_goals cases h

theorem trans_of_workerStep {c : Config} {w : Nat} {s s' : State} (hw : 1 ≤ w ∧ w < c.p)
    (h : workerStep c w s = some s') : Trans c s s' := by
  unfold workerStep at h
  split at h
  · next hc =>
    obtain rfl := Option.some.inj h
    cases hs : c.sees w with
    | true => exact .workerStarts hw hc hs
    | false => exact .workerExits hw hc hs
  · next hc =>
    split at h
    · cases h
    · next messageIn rest hi =>
      cases messageIn with
      | none => obtain rfl := Option.some.inj h; exact .recvIdle hw hc hi
      | some text => obtain rfl := Option.some.inj h; exact .recvJobs hw hc hi
  · next hc => obtain rfl := Option.some.inj h; exact .sendIdle hw hc
  · next jobs k hc =>
    split at h
    · next hj =>
      obtain rfl := Option.some.inj h
      exact .jobsDone hw hc (List.getElem?_eq_none_iff.mp hj)
    · next job hj =>
      split at h
      · next e hr => obtain rfl := Option.some.inj h; exact .jobRaises hw hc hj hr
      · next hr => obtain rfl := Option.some.inj h; exact .process hw hc hj hr
  · next jobs k text hc => obtain rfl := Option.some.inj h; exact .sendFinished hw hc
  all_goals cases h

/-- **Inversion**: every step is one of the listed transitions. -/
theorem trans_of_step {c : Config} {a : Move} {s s' : State}
    (h : (system c).step a s = some s') : Trans c s s' := by
  cases a with
  | master source => exact trans_of_masterStep h
  | worker w =>
      simp only [system, step] at h
      split at h
      · next hw => exact trans_of_workerStep hw h
      · cases h

/-- **Invariant rule** for the protocol: check the initial state and every
transition. -/
theorem reachable_invariant {c : Config} {I : State → Prop} (h0 : I initState)
    (hstep : ∀ s s', Reachable (system c) s → I s → Trans c s s' → I s') {s : State}
    (h : Reachable (system c) s) : I s :=
  h.invariant (fun s hs => by rw [show s = initState from hs]; exact h0)
    fun s _ s' hr hI hs => hstep s s' hr hI (trans_of_step hs)

end ContainerHackathon.PyStager
