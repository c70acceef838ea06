import Mathlib
import Pgvs3.Conc.Machine
/-!
# Jobs

The job operations of `store/ojs.go` and the two sweeps over a `jobs` table, statement by statement.

Every call is a transaction at READ COMMITTED; `now()` is the time at which it began. A row that a
transaction has locked carries its holder and the row as the holder sees it (`Lock`). The last
statement of a call and its commit are one step. A scan with `SKIP LOCKED` takes its rows one after
the other; `Act.run` names the rows that were not to be had. `s3p.job_index` has the ids of all
`jobs` tables, since both are written by one transaction and deleted by one statement. A queue that
does not exist has no jobs. Texts that are only compared are numbers, 0 is the empty text; times are
milliseconds. What is never read (`type`, `args`, `meta`, `tags`, `timeout_ms`) is left out.
-/

namespace Pgvs3.Jobs

/-- `store/ojs.go:746`. -/
inductive JobState where
  | unknown | scheduled | available | pending | active | completed | retryable | cancelled | discarded
deriving DecidableEq, Repr

/-- `completed`, `cancelled` and `discarded` jobs are kept for a while and then deleted. -/
def JobState.terminal : JobState → Bool
  | completed | cancelled | discarded => true
  | _ => false

/-- `store/ojs.go:798`. -/
inductive JobEvent where
  | unknown | enqueue | scheduleDue | lease | leaseExpired | ack | nack | heartbeat | cancel | expire
deriving DecidableEq, Repr

structure Retry where
  initialMS : Int
  maxMS : Int
  coefficient : Rat
deriving DecidableEq, Repr

/-- `jobRetention`, and `retryDelayMS` (923-930), whose float arithmetic is left open. -/
structure Config where
  retention : Int
  retryDelayMS : Retry → Nat → Int

/-! ## The transition table -/

/-- `store/ojs.go:833-848`. -/
structure TransitionInput where
  state : JobState
  event : JobEvent
  now : Int
  scheduledAt : Option Int
  expiresAt : Option Int
  attempt : Nat
  maxAttempts : Nat
  retry : Retry
  retryable : Bool

/-- `store/ojs.go:850-855`. -/
structure TransitionResult where
  state : JobState
  attempt : Nat
  retryDelayMS : Int
deriving DecidableEq, Repr

/-- The ways in which `ErrInvalidTransition` is wrapped. -/
inductive TransitionError where
  | unknownEvent (event : JobEvent)
  | source (event : JobEvent) (state : JobState)
  | beforeScheduledAt (state : JobState)
  | beforeExpiresAt (state : JobState)
deriving DecidableEq, Repr

/-- `store/ojs.go:919-921`. -/
def jobTransitions : JobEvent → Option (List JobState)
  | .unknown => none
  | .enqueue => some [.unknown]
  | .scheduleDue => some [.scheduled, .retryable]
  | .lease => some [.available]
  | .leaseExpired => some [.active]
  | .ack => some [.active]
  | .nack => some [.active]
  | .heartbeat => some [.active]
  | .cancel => some [.scheduled, .available, .pending, .active, .retryable]
  | .expire => some [.scheduled, .available, .retryable]

/-- What an event makes of a job from which the table allows it. -/
def TransitionInput.result (cfg : Config) (x : TransitionInput) : Except TransitionError TransitionResult :=
  let out : TransitionResult := ⟨x.state, x.attempt, 0⟩
  match x.event with
  | .enqueue => .ok { out with state := if ∃ at' ∈ x.scheduledAt, x.now < at' then .scheduled else .available }
  | .scheduleDue =>
    if ∃ at' ∈ x.scheduledAt, at' ≤ x.now then .ok { out with state := .available } else .error (.beforeScheduledAt x.state)
  | .lease => .ok { out with state := .active, attempt := if x.attempt = 0 then 1 else x.attempt }
  | .leaseExpired =>
    if x.attempt < x.maxAttempts then .ok { out with state := .available, attempt := x.attempt + 1 }
    else .ok { out with state := .discarded }
  | .ack => .ok { out with state := .completed }
  | .nack =>
    if x.retryable ∧ x.attempt < x.maxAttempts then .ok ⟨.retryable, x.attempt + 1, cfg.retryDelayMS x.retry x.attempt⟩
    else .ok { out with state := .discarded }
  | .cancel => .ok { out with state := .cancelled }
  | .expire =>
    if ∃ at' ∈ x.expiresAt, at' ≤ x.now then .ok { out with state := .discarded } else .error (.beforeExpiresAt x.state)
  | .heartbeat | .unknown => .ok out

/-- `store/ojs.go:869-917`. -/
def transition (cfg : Config) (x : TransitionInput) : Except TransitionError TransitionResult :=
  match jobTransitions x.event with
  | none => .error (.unknownEvent x.event)
  | some sources => if x.state ∈ sources then x.result cfg else .error (.source x.event x.state)

/-! ## Rows -/

/-- `store/ojs.go:25-55`. -/
structure Job where
  seq : Nat
  id : Nat
  queue : Nat
  state : JobState
  attempt : Nat
  maxAttempts : Nat
  priority : Int
  createdAt : Int
  scheduledAt : Option Int
  enqueuedAt : Int
  startedAt : Option Int
  completedAt : Option Int
  cancelledAt : Option Int
  discardedAt : Option Int
  expiresAt : Option Int
  workerId : Option Nat
  leaseToken : Option Nat
  leaseUntil : Option Int
  retry : Retry
  retryDelayMS : Option Int
  result : Option Nat
  error : Option Nat
deriving DecidableEq, Repr

namespace Job

variable (j : Job)

/-- The generated column `next_visible_at` (`schema.sql:659-663`). -/
def nextVisibleAt : Option Int := if j.state = .active then j.leaseUntil else some (j.scheduledAt.getD j.enqueuedAt)

/-- `lease_until IS NOT NULL AND lease_until > now()`. -/
def leaseLive (now : Int) : Prop := ∃ u ∈ j.leaseUntil, now < u

instance (now : Int) : Decidable (j.leaseLive now) := inferInstanceAs (Decidable (∃ u ∈ j.leaseUntil, now < u))

/-- The condition of `candidates`. -/
def fetchable (now : Int) : Prop :=
  j.state ∈ [.available, .scheduled, .retryable, .active] ∧ (∀ e ∈ j.expiresAt, now < e) ∧ (∀ v ∈ j.nextVisibleAt, v ≤ now) ∧
    ¬ (j.state = .active ∧ j.maxAttempts ≤ j.attempt)

instance (now : Int) : Decidable (j.fetchable now) := inferInstanceAs (Decidable (_ ∧ _))

/-- The update of `leased`. -/
def lease (now : Int) (token : Nat) (worker : Nat) (visibility : Int) : Job :=
  { j with
    state := .active
    attempt := if j.state = .active then j.attempt + 1 else max j.attempt 1
    startedAt := some now
    workerId := if worker = 0 then none else some worker
    leaseToken := some token
    leaseUntil := some (now + visibility)
    retryDelayMS := none }

/-- The update of `extendQueueLeases`. -/
def extend (now : Int) (worker : Nat) (visibility : Int) : Job :=
  { j with leaseUntil := some (now + visibility), workerId := if worker = 0 then none else some worker }

/-- `coalesce(completed_at, cancelled_at, discarded_at, created_at)`. -/
def endedAt : Int := ((j.completedAt.or j.cancelledAt).or j.discardedAt).getD j.createdAt

/-- The condition of `victims`. -/
def expired (cfg : Config) (now : Int) : Prop :=
  (∃ e ∈ j.expiresAt, e ≤ now) ∨ (0 < cfg.retention ∧ j.state.terminal = true ∧ j.endedAt ≤ now - cfg.retention)

instance (cfg : Config) (now : Int) : Decidable (j.expired cfg now) := inferInstanceAs (Decidable (_ ∨ _))

/-- The condition of `DiscardExpiredLeases`. -/
def spent (now : Int) : Prop := j.state = .active ∧ (∀ u ∈ j.leaseUntil, u ≤ now) ∧ j.maxAttempts ≤ j.attempt

instance (now : Int) : Decidable (j.spent now) := inferInstanceAs (Decidable (_ ∧ _))

/-- The update of `DiscardExpiredLeases`. -/
def discard (now : Int) : Job :=
  { j with
    state := .discarded
    discardedAt := some now
    completedAt := some now
    workerId := none
    leaseToken := none
    leaseUntil := none }

end Job

/-- Ascending, `NULL` last. -/
def nullsLast : Option Int → Option Int → Bool
  | some x, some y => x < y
  | some _, none => true
  | none, _ => false

/-- `ORDER BY priority DESC, next_visible_at, seq`. -/
def claimOrder (a b : Job) : Prop :=
  b.priority < a.priority ∨ (a.priority = b.priority ∧
    (nullsLast a.nextVisibleAt b.nextVisibleAt = true ∨ (a.nextVisibleAt = b.nextVisibleAt ∧ a.seq ≤ b.seq)))

instance : DecidableRel claimOrder := fun _ _ => inferInstanceAs (Decidable (_ ∨ _))

/-- `ORDER BY priority DESC, coalesce(scheduled_at, enqueued_at, created_at), id`. -/
def answerOrder (a b : Job) : Prop :=
  b.priority < a.priority ∨ (a.priority = b.priority ∧ (a.scheduledAt.getD a.enqueuedAt < b.scheduledAt.getD b.enqueuedAt ∨
      (a.scheduledAt.getD a.enqueuedAt = b.scheduledAt.getD b.enqueuedAt ∧ a.id ≤ b.id)))

instance : DecidableRel answerOrder := fun _ _ => inferInstanceAs (Decidable (_ ∨ _))

/-- `ORDER BY lease_until NULLS FIRST` (`store/ojs.go:622-624`). -/
def leaseOrder (a b : Job) : Prop := a.leaseUntil = none ∨ ∃ x ∈ a.leaseUntil, ∃ y ∈ b.leaseUntil, x ≤ y

instance : DecidableRel leaseOrder := fun _ _ => inferInstanceAs (Decidable (_ ∨ _))

/-! ## Requests -/

inductive JobError where
  | notFound | conflict | leaseStale | duplicate | invalidTransition
  /-- An error that the database raises. -/
  | database
deriving DecidableEq, Repr

/-- `store/ojs.go:57-72`. -/
structure EnqueueInput where
  id : Nat
  queue : Nat
  maxAttempts : Nat
  priority : Int
  scheduledAt : Option Int
  retry : Retry
  expiresAt : Option Int
deriving DecidableEq, Repr

/-- The arguments of `mutateJob`, where the event is an ack, a nack or a cancel. -/
structure Mutation where
  id : Nat
  leaseToken : Nat
  event : JobEvent
  payload : Nat
  retryable : Bool
deriving DecidableEq, Repr

structure Fetch where
  queues : List Nat
  count : Int
  worker : Nat
  visibility : Int
deriving DecidableEq, Repr

def Fetch.limit (f : Fetch) : Nat := if f.count ≤ 0 then 1 else f.count.toNat

structure Heartbeat where
  worker : Nat
  /-- Job ids and lease tokens. -/
  leases : List (Nat × Nat)
  visibility : Int
deriving DecidableEq, Repr

/-- `store/ojs.go:243-248`. -/
def Retry.stored (r : Retry) : Retry where
  initialMS := if r.initialMS ≤ 0 then 1000 else r.initialMS
  maxMS := if r.maxMS ≤ 0 then 60000 else r.maxMS
  coefficient := if r.coefficient < 1 then 2 else r.coefficient

/-- One job of `stageEnqueueJobs`, with what `insertEnqueuedJobs` makes of its retry policy. -/
def stageEnqueueJob (cfg : Config) (now : Int) (x : EnqueueInput) : Except TransitionError Job :=
  let scheduled := x.scheduledAt.getD now
  match transition cfg ⟨.unknown, .enqueue, now, some scheduled, none, 0, 0, ⟨0, 0, 0⟩, false⟩ with
  | .error e => .error e
  | .ok t => .ok {
      seq := 0, id := x.id, queue := x.queue, state := t.state, attempt := 0, maxAttempts := x.maxAttempts, priority := x.priority
      createdAt := now, scheduledAt := some scheduled, enqueuedAt := now, startedAt := none, completedAt := none
      cancelledAt := none, discardedAt := none, expiresAt := x.expiresAt, workerId := none, leaseToken := none
      leaseUntil := none, retry := x.retry.stored, retryDelayMS := none, result := none, error := none }

/-- `store/ojs.go:174-208`. -/
def stageEnqueueJobs (cfg : Config) (now : Int) : List EnqueueInput → Except TransitionError (List Job)
  | [] => .ok []
  | x :: xs =>
    match stageEnqueueJob cfg now x, stageEnqueueJobs cfg now xs with
    | .ok j, .ok js => .ok (j :: js)
    | .error e, _ => .error e
    | _, .error e => .error e

/-- `NULLIF($3,'')`. -/
def nullIf (text : Nat) : Option Nat := if text = 0 then none else some text

/-- The update of `mutateJob`. -/
def Mutation.change (m : Mutation) (now : Int) (j : Job) (t : TransitionResult) : Except JobError Job :=
  match m.event with
  | .cancel => .ok { j with
      state := t.state, cancelledAt := some now, completedAt := some now, workerId := none, leaseToken := none, leaseUntil := none }
  | .ack => .ok { j with
      state := t.state, completedAt := some now, result := nullIf m.payload, leaseToken := none, leaseUntil := none }
  | .nack =>
    if t.state = .discarded then .ok { j with
      state := t.state, discardedAt := some now, completedAt := some now, error := nullIf m.payload, leaseToken := none
      leaseUntil := none, workerId := none }
    else .ok { j with
      state := t.state, attempt := t.attempt, scheduledAt := some (now + t.retryDelayMS), retryDelayMS := some t.retryDelayMS
      error := nullIf m.payload, workerId := none, leaseToken := none, leaseUntil := none }
  | _ => .error .invalidTransition

/-- What `mutateJob` makes of the row it has locked. None of these events reads the clock that it
passes to `Transition`. -/
def mutate (cfg : Config) (m : Mutation) (now : Int) (j : Job) : Except JobError Job :=
  match transition cfg ⟨j.state, m.event, now, none, none, j.attempt, j.maxAttempts, j.retry, m.retryable⟩ with
  | .error _ => .error .conflict
  | .ok t =>
    if m.event ≠ .cancel ∧ (j.leaseToken.getD 0 ≠ m.leaseToken ∨ ¬ j.leaseLive now) then .error .leaseStale
    else m.change now j t

/-- What `validateQueueLeases` says of a row. -/
def validate (cfg : Config) (token : Nat) (now : Int) (j : Job) : Option JobError :=
  match transition cfg ⟨j.state, .heartbeat, now, none, none, 0, 0, ⟨0, 0, 0⟩, false⟩ with
  | .error _ => some .conflict
  | .ok _ => if j.leaseToken.getD 0 ≠ token ∨ ¬ j.leaseLive now then some .leaseStale else none

/-! ## The world -/

/-- A row lock, with the row as the transaction that holds it sees it. -/
structure Lock where
  holder : Nat
  view : Job
deriving DecidableEq, Repr

structure History where
  /-- The tokens with which `FetchJobs` has returned it, the first one first. -/
  delivered : List Nat
  /-- The tokens with which an ack or a nack has succeeded. -/
  settled : List Nat
  /-- The last lease that was given or extended: its token and deadline. -/
  lease : Option (Nat × Int)
deriving DecidableEq, Repr

/-- `schema.sql:635-663`. -/
structure Row where
  job : Job
  lock : Option Lock
  hist : History
deriving DecidableEq, Repr

namespace Row

variable (i : Nat) (r : Row)

/-- `WHERE id=$1`, in the table of the queue. -/
def is (queue id : Nat) : Prop := r.job.queue = queue ∧ r.job.id = id

instance (queue id : Nat) : Decidable (r.is queue id) := inferInstanceAs (Decidable (_ ∧ _))

def heldBy : Prop := ∃ l ∈ r.lock, l.holder = i

instance : Decidable (r.heldBy i) := inferInstanceAs (Decidable (∃ l ∈ r.lock, _))

def freeFor : Prop := ∀ l ∈ r.lock, l.holder = i

instance : Decidable (r.freeFor i) := inferInstanceAs (Decidable (∀ l ∈ r.lock, _))

/-- The row as the session sees it. -/
def seen : Job :=
  match r.lock with
  | some l => if l.holder = i then l.view else r.job
  | none => r.job

def put (j : Job) : Row := { r with lock := some ⟨i, j⟩ }

def release : Row := if r.heldBy i then { r with lock := none } else r

/-- The lease of a job that is active. -/
def leaseOf (j : Job) : Option (Nat × Int) :=
  if j.state = .active then j.leaseToken.bind fun t => j.leaseUntil.map (t, ·) else none

def commit : Row :=
  if r.heldBy i then { r with job := r.seen i, lock := none, hist := { r.hist with lease := (leaseOf (r.seen i)).or r.hist.lease } }
  else r

/-- `FetchJobs` returns `out`. -/
def deliver (out : List Job) : Row :=
  { r with hist := { r.hist with delivered := r.hist.delivered ++ (out.filter (·.id = r.job.id)).filterMap (·.leaseToken) } }

/-- The commit of `mutateJob`. -/
def settle (m : Mutation) : Row :=
  if m.event = .cancel then r.commit i
  else { r.commit i with hist := { (r.commit i).hist with settled := (r.commit i).hist.settled ++ [m.leaseToken] } }

end Row

inductive Answer where
  | jobs (out : List Job)
  /-- `PreviousState` is set by a cancel. -/
  | job (j : Job) (previousState : Option JobState)
  | ids (out : List Nat)
  | count (n : Nat)
  | error (e : JobError)
deriving DecidableEq, Repr

inductive Call where
  | idle
  | answered (x : Answer)
  /-- `done` are inserted and not committed. -/
  | enqueue (todo done : List Job)
  /-- `queueForJob` has answered. -/
  | resolved (m : Mutation) (queue : Nat)
  | begun (m : Mutation) (queue : Nat) (began : Int)
  /-- The row is read and locked. -/
  | read (m : Mutation) (queue : Nat) (began : Int)
  | fetch (f : Fetch)
  | fetching (f : Fetch) (began : Int) (todo : List Nat) (out : List Job)
  /-- `resolveLeaseQueues` has answered. -/
  | heartbeat (h : Heartbeat) (byQueue : List (Nat × List (Nat × Nat)))
  | validating (h : Heartbeat) (began : Int) (todo byQueue : List (Nat × List (Nat × Nat)))
  | extending (h : Heartbeat) (began : Int) (todo : List (Nat × List (Nat × Nat)))
  | expire (victims : List Job)
  | discard (queue limit : Nat) (began : Int)
deriving DecidableEq

def Call.inserted : Call → List Nat
  | enqueue _ done => done.map (·.id)
  | _ => []

def Call.free : Call → Bool
  | idle | answered _ => true
  | _ => false

structure World where
  cfg : Config
  now : Int
  /-- The next lease token; `newJobID` never gives the same twice. -/
  token : Nat
  seq : Nat
  rows : List Row
  /-- What `ExpireMessages` has deleted. -/
  removed : List Row
  calls : List Call

inductive Request where
  | enqueue (inputs : List EnqueueInput)
  | fetch (f : Fetch)
  | cancel (id : Nat)
  | ack (id leaseToken result : Nat)
  | nack (id leaseToken jobErr : Nat) (retryable : Bool)
  | heartbeat (h : Heartbeat)
  | expireMessages (queue limit : Nat)
  | discardExpiredLeases (queue limit : Nat)
deriving DecidableEq, Repr

namespace World

variable (w : World)

def set (i : Nat) (c : Call) : World := { w with calls := w.calls.set i c }

/-- `s3p.job_index` (`store/ojs.go:368-375`). -/
def queueForJob (id : Nat) : Option Nat := (w.rows.find? (·.job.id = id)).map (·.job.queue)

/-- `resolveLeaseQueues`: the leases by queue, if all jobs are in the index
(`store/ojs.go:510-537`). -/
def resolveLeaseQueues (leases : List (Nat × Nat)) : Option (List (Nat × List (Nat × Nat))) :=
  if ∃ l ∈ leases, w.queueForJob l.1 = none then none
  else
    let order := leases.insertionSort (·.1 ≤ ·.1)
    let queues := ((order.filterMap fun l => w.queueForJob l.1).dedup).insertionSort (· ≤ ·)
    some (queues.map fun q => (q, order.filter fun l => w.queueForJob l.1 = some q))

/-- The rows that `fetchQueueTx` locks; `skip` were not to be had. -/
def candidates (i queue : Nat) (began : Int) (limit : Nat) (skip : List Nat) : List Row :=
  ((w.rows.filter fun r => r.job.queue = queue ∧ r.freeFor i ∧ r.job.id ∉ skip ∧ (r.seen i).fetchable began).insertionSort
    fun a b => claimOrder (a.seen i) (b.seen i)).take limit

/-- What `ExpireMessages` deletes, as its snapshot shows it (`store/ojs.go:679-708`). -/
def victims (queue limit : Nat) : List Job :=
  (((w.rows.map (·.job)).filter fun j => j.queue = queue ∧ j.expired w.cfg w.now).insertionSort (·.endedAt ≤ ·.endedAt)).take limit

/-- The rows that `DiscardExpiredLeases` updates. -/
def spentRows (queue limit : Nat) (began : Int) (skip : List Nat) : List Row :=
  ((w.rows.filter fun r => r.job.queue = queue ∧ r.lock = none ∧ r.job.id ∉ skip ∧ r.job.spent began).insertionSort
    fun a b => leaseOrder a.job b.job).take limit

/-! ## Steps -/

/-- `store/ojs.go:405-482`. -/
def mutateJob (i : Nat) (m : Mutation) : World :=
  match w.queueForJob m.id with
  | none => w.set i (.answered (.error .notFound))
  | some queue => w.set i (.resolved m queue)

/-- The first statement of a call. A Go map has every key once. -/
def start (i : Nat) : Request → Option World
  | .enqueue inputs =>
    match stageEnqueueJobs w.cfg w.now inputs with
    | .ok jobs => some (w.set i (.enqueue jobs []))
    | .error _ => some (w.set i (.answered (.error .invalidTransition)))
  | .fetch f => some (w.set i (if f.queues = [] then .answered (.jobs []) else .fetch f))
  | .cancel id => some (w.mutateJob i ⟨id, 0, .cancel, 0, false⟩)
  | .ack id token result => some (w.mutateJob i ⟨id, token, .ack, result, false⟩)
  | .nack id token jobErr retryable => some (w.mutateJob i ⟨id, token, .nack, jobErr, retryable⟩)
  | .heartbeat h =>
    if (h.leases.map (·.1)).Nodup then
      match w.resolveLeaseQueues h.leases with
      | some byQueue => some (w.set i (.heartbeat h byQueue))
      | none => some (w.set i (.answered (.error .notFound)))
    else none
  | .expireMessages queue limit => some (w.set i (.expire (w.victims queue limit)))
  | .discardExpiredLeases queue limit => some (w.set i (.discard queue limit w.now))

def fail (i : Nat) (c : Call) : World := { w.set i c with rows := w.rows.map (·.release i) }

/-- One job of `insertEnqueuedJobs`: its row and its index row (`store/ojs.go:210-241`). -/
def insert (i : Nat) (j : Job) (todo done : List Job) : Option World :=
  if ∃ x ∈ w.rows.map (·.job) ++ done, x.id = j.id then
    some (w.set i (.answered (.error
      (if ∃ x ∈ w.rows.map (·.job) ++ done, x.id = j.id ∧ x.queue = j.queue then .duplicate else .database))))
  -- the same id in another transaction is waited for
  else if ∃ c ∈ w.calls, j.id ∈ c.inserted then none
  else some { w.set i (.enqueue todo (done ++ [{ j with seq := w.seq }])) with seq := w.seq + 1 }

/-- `SELECT ... FOR UPDATE` of `mutateJob`. -/
def lockRow (i : Nat) (m : Mutation) (queue : Nat) (began : Int) : Option World :=
  match w.rows.find? (·.is queue m.id) with
  | none => some (w.set i (.answered (.error .notFound)))
  | some r =>
    if r.freeFor i then
      some { w.set i (.read m queue began) with rows := w.rows.map fun x => if x.is queue m.id then x.put i (x.seen i) else x }
    else none

/-- The update of `mutateJob` and its commit. -/
def update (i : Nat) (m : Mutation) (queue : Nat) (began : Int) : Option World :=
  match w.rows.find? (·.is queue m.id) with
  | none => none
  | some r =>
    match mutate w.cfg m began (r.seen i) with
    | .error e => some (w.fail i (.answered (.error e)))
    | .ok j => some
      { w.set i (.answered (.job j (if m.event = .cancel then some (r.seen i).state else none))) with
        rows := w.rows.map fun x => if x.is queue m.id then (x.put i j).settle i m else x }

/-- The row that `fetchQueueTx` returns. -/
def leased (i : Nat) (f : Fetch) (began : Int) (r : Row) : Job := (r.seen i).lease began w.token f.worker f.visibility

/-- `fetchQueueTx` (`store/ojs.go:340-366`). -/
def fetchQueue (i : Nat) (f : Fetch) (began : Int) (queue : Nat) (todo : List Nat) (out : List Job) (skip : List Nat) : World :=
  let rows := w.candidates i queue began (f.limit - out.length) skip
  { w.set i (.fetching f began todo (out ++ (rows.map (w.leased i f began)).insertionSort answerOrder)) with
    token := w.token + 1
    rows := w.rows.map fun r => if r ∈ rows then r.put i (w.leased i f began r) else r }

/-- The commit of `FetchJobs`. -/
def fetched (i : Nat) (out : List Job) : World :=
  { w.set i (.answered (.jobs out)) with rows := w.rows.map fun r => (r.deliver out).commit i }

/-- The row is among those of `validateQueueLeases` or `extendQueueLeases`. -/
def named (queue : Nat) (leases : List (Nat × Nat)) (r : Row) : Prop := r.job.queue = queue ∧ r.job.id ∈ leases.map (·.1)

instance (queue : Nat) (leases : List (Nat × Nat)) (r : Row) : Decidable (named queue leases r) := inferInstanceAs (Decidable (_ ∧ _))

/-- The error of `validateQueueLeases`. -/
def validateError (i : Nat) (began : Int) (queue : Nat) (leases : List (Nat × Nat)) : Option JobError :=
  let rows := w.rows.filter (named queue leases)
  let errors := rows.filterMap fun r => (leases.find? (·.1 = r.job.id)).bind fun l => validate w.cfg l.2 began (r.seen i)
  match errors with
  | e :: _ => some e
  | [] => if rows.length ≠ leases.length then some .notFound else none

/-- `validateQueueLeases` (`store/ojs.go:548-592`). -/
def validateQueue (i : Nat) (h : Heartbeat) (began : Int) (queue : Nat) (leases : List (Nat × Nat))
    (todo byQueue : List (Nat × List (Nat × Nat))) : Option World :=
  if ∃ r ∈ w.rows, named queue leases r ∧ ¬ r.freeFor i then none
  else
    match w.validateError i began queue leases with
    | some e => some (w.fail i (.answered (.error e)))
    | none => some
      { w.set i (.validating h began todo byQueue) with
        rows := w.rows.map fun r => if named queue leases r then r.put i (r.seen i) else r }

/-- `WHERE j.id=t.id AND j.state=$5 AND j.lease_token=t.token`. -/
def extendable (i queue : Nat) (leases : List (Nat × Nat)) (r : Row) : Prop :=
  r.job.queue = queue ∧ (r.seen i).state = .active ∧ ∃ t ∈ (r.seen i).leaseToken, (r.job.id, t) ∈ leases

instance (i queue : Nat) (leases : List (Nat × Nat)) (r : Row) : Decidable (extendable i queue leases r) :=
  inferInstanceAs (Decidable (_ ∧ _))

/-- `extendQueueLeases` (`store/ojs.go:603-620`). -/
def extendQueue (i : Nat) (h : Heartbeat) (began : Int) (queue : Nat) (leases : List (Nat × Nat))
    (todo : List (Nat × List (Nat × Nat))) : Option World :=
  if ∃ r ∈ w.rows, extendable i queue leases r ∧ ¬ r.freeFor i then none
  else some { w.set i (.extending h began todo) with
      rows := w.rows.map fun r => if extendable i queue leases r then r.put i ((r.seen i).extend began h.worker h.visibility) else r }

/-- The end of `ExpireMessages`. A row that has changed since the snapshot has another `ctid`, and
is left. -/
def remove (i : Nat) (victims : List Job) : Option World :=
  if ∃ r ∈ w.rows, r.job ∈ victims ∧ r.lock ≠ none then none
  else some { w.set i (.answered (.count (w.rows.filter (·.job ∈ victims)).length)) with
      rows := w.rows.filter (·.job ∉ victims)
      removed := w.removed ++ w.rows.filter (·.job ∈ victims) }

/-- `DiscardExpiredLeases` (`store/ojs.go:710-738`). -/
def discardRows (i queue limit : Nat) (began : Int) (skip : List Nat) : World :=
  let rows := w.spentRows queue limit began skip
  { w.set i (.answered (.count rows.length)) with
    rows := w.rows.map fun r => if r ∈ rows then { r with job := r.job.discard began } else r }

def exec (i : Nat) (skip : List Nat) : Call → Option World
  | .idle | .answered _ => none
  | .enqueue (j :: todo) done => w.insert i j todo done
  | .enqueue [] done => some
    { w.set i (.answered (.jobs done)) with rows := w.rows ++ done.map fun j => ⟨j, none, ⟨[], [], none⟩⟩ }
  | .resolved m queue => some (w.set i (.begun m queue w.now))
  | .begun m queue began => w.lockRow i m queue began
  | .read m queue began => w.update i m queue began
  | .fetch f => some (w.set i (.fetching f w.now f.queues []))
  | .fetching f began (queue :: todo) out =>
    if f.limit ≤ out.length then some (w.fetched i out) else some (w.fetchQueue i f began queue todo out skip)
  | .fetching _ _ [] out => some (w.fetched i out)
  | .heartbeat h byQueue => some (w.set i (.validating h w.now byQueue byQueue))
  | .validating h began ((queue, leases) :: todo) byQueue => w.validateQueue i h began queue leases todo byQueue
  | .validating h began [] byQueue => some (w.set i (.extending h began byQueue))
  | .extending h began ((queue, leases) :: todo) => w.extendQueue i h began queue leases todo
  | .extending h _ [] => some
    { w.set i (.answered (.ids ((h.leases.map (·.1)).insertionSort (· ≤ ·)))) with rows := w.rows.map (·.commit i) }
  | .expire victims => w.remove i victims
  | .discard queue limit began => some (w.discardRows i queue limit began skip)

end World

inductive Act where
  /-- A new connection. -/
  | connect
  | elapse (time : Nat)
  | start (i : Nat) (r : Request)
  /-- The next statement of session `i`, whose scan finds the rows of `skip` locked. -/
  | run (i : Nat) (skip : List Nat)
  /-- An error or a lost connection: the call is rolled back. -/
  | abort (i : Nat)
deriving DecidableEq, Repr

def next (w : World) : Act → Option World
  | .connect => some { w with calls := w.calls ++ [.idle] }
  | .elapse time => some { w with now := w.now + time }
  | .start i r =>
    match w.calls[i]? with
    | some c => if c.free then w.start i r else none
    | none => none
  | .run i skip =>
    match w.calls[i]? with
    | some c => w.exec i skip c
    | none => none
  | .abort i => some (w.fail i .idle)

def World.init (cfg : Config) (now : Int) : World := ⟨cfg, now, 1, 1, [], [], []⟩

abbrev machine : Conc.Machine := ⟨World, Act, next⟩

end Pgvs3.Jobs
