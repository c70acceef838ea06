import Pgvs3.Conc.Machine
import Pgvs3.Data.Snapshot
/-!
# Streams

The functions of a queue schema (`store/schema.sql:816-1224`), statement by statement. Each call is
one transaction at READ COMMITTED: every statement sees what has been committed when it begins, and
what the call has written itself is part of the call's place in its text (`Tx`, `Rotation`) until it
commits. The last statement of a call and its commit are one step.

The constructors of `Tx` are named for `stream_append`, `stream_subscribe`, `stream_receive` (from
`asking` on), `stream_ack`, `stream_process_retries` and `stream_prune_ticks`; `Rotation` is
`stream_rotate`.

Append, subscribe, receive and retries hold the advisory lock of the schema shared, a rotation holds
it exclusively; ack, nack and prune do not take it. A receive holds the row of its consumer
(`FOR UPDATE`), an ack the row of its batch. An xid is in a snapshot's `xip` from the statement that draws it to the
end of its transaction; `Tx.other` stands for every transaction that has an xid and appends nothing.

Consumers, members and event ids are texts that are only compared. Payloads are carried along and
left out.
-/

namespace Pgvs3.Stream

open Function

/-- `schema.sql:733-743`. -/
structure Event where
  seq : Nat
  segment : Nat
  txid : Nat
  eventId : Nat
  retryCount : Nat
deriving DecidableEq, Repr

/-- `schema.sql:712-717`. -/
structure Tick where
  id : Nat
  snapshot : Snapshot
  createdAt : Nat
deriving DecidableEq

/-- A row of `stream_subscriptions` (`schema.sql:757-763`). -/
structure Sub where
  consumer : Nat
  lastTick : Nat
  nextTick : Nat
deriving DecidableEq, Repr

/-- A row of `stream_batches` with its `stream_batch_events` (`stream.go:58-66`). -/
structure Batch where
  id : Nat
  consumer : Nat
  member : Nat
  startTick : Nat
  endTick : Nat
  acked : Bool
  seqs : List Nat
deriving DecidableEq, Repr

/-- `schema.sql:783-794`. -/
structure Retry where
  id : Nat
  batch : Nat
  eventId : Nat
  retryCount : Nat
  dueAt : Nat
deriving DecidableEq, Repr

/-- `stream.go:96-106`. -/
structure DeadLetter where
  batch : Nat
  eventId : Nat
  retryCount : Nat
deriving DecidableEq, Repr

structure Cursors where
  ticks : List Tick
  tickSeq : Nat
  /-- The snapshot of every tick that was ever inserted, whether its row is still there or not. -/
  snaps : Nat → Option Snapshot
  subs : List Sub
  batches : List Batch
  batchSeq : Nat

/-- The event segments, with what `stream_nack` sets aside (`schema.sql:723-727`). -/
structure Segments where
  current : Nat
  startedAt : Nat
  sealedXid : Nat → Option Nat
  events : List Event
  eventSeq : Nat
  retries : List Retry
  retrySeq : Nat
  dead : List DeadLetter

structure Origin where
  tick : Nat
  /-- What had been truncated by then. -/
  gone : List Event
deriving DecidableEq

structure History where
  /-- Every event whose transaction has committed. -/
  log : List Event
  /-- Every event that a rotation has truncated. -/
  gone : List Event
  origin : Nat → Option Origin
  /-- The events of the batches that have been returned to each consumer. -/
  got : Nat → List Nat

structure Receive where
  consumer : Nat
  /-- `p_member`, where 0 is the empty text of a normal receive. -/
  member : Nat
  limit : Nat
  /-- `now()`: when the transaction began. -/
  began : Nat
  lastSeen : Nat
  /-- The call has inserted the row of its consumer itself. -/
  fresh : Bool
deriving DecidableEq, Repr

/-- Where `stream_receive` is once it holds the row of its consumer. -/
inductive Place where
  | owned
  /-- The member has no active batch. -/
  | idle
  /-- `end_at = 0`: there is no newer tick. -/
  | newest (startAt : Nat)
  /-- The current snapshot shows new events. -/
  | visible (startAt : Nat)
  /-- `stream_new_tick` has its snapshot but no id yet; `mark` is the next id at that time. -/
  | stamped (startAt : Nat) (snapshot : Snapshot) (mark : Nat)
  /-- Both ends are known; `own` is the tick that the call has inserted. -/
  | ranged (startAt endAt : Nat) (own : Option Tick)
  | collected (startAt endAt : Nat) (own : Option Tick) (seqs : List Nat)
deriving DecidableEq

inductive Tx where
  | idle
  | other (xid : Nat)
  /-- `v_segment` has been read. -/
  | append (segment : Nat) (ids : List Nat)
  | retries (segment limit began : Nat)
  /-- The due rows have been picked. -/
  | due (segment : Nat) (picked : List Nat)
  /-- Events are inserted and retry rows deleted, not committed. -/
  | written (xid : Nat) (rows : List Event) (moved : List Nat)
  | subscribe (consumer : Nat) (fromTick : Option Nat)
  | placed (consumer target : Nat)
  | asking (r : Receive)
  /-- The consumer has no row. -/
  | missing (r : Receive)
  /-- `stream_latest_tick` has answered `r.lastSeen`. -/
  | latest (r : Receive)
  | receive (r : Receive) (p : Place)
  | ack (batch consumer : Nat)
  /-- The recursive query has been run, from `base`, the consumer's `last_tick` in its snapshot. -/
  | chained (batch consumer base : Nat) (chain : List Batch)
  | prune (ids : List Nat)
deriving DecidableEq

namespace Tx

/-- It holds the advisory lock of the schema shared. -/
def shared : Tx → Bool
  | append .. | retries .. | due .. | written .. | subscribe .. | placed .. | asking _ | missing _ | latest _ | receive .. => true
  | idle | other _ | ack .. | chained .. | prune _ => false

def xid : Tx → Option Nat
  | other x | written x _ _ => some x
  | _ => none

def row : Tx → Option Nat
  | receive r _ => some r.consumer
  | _ => none

def batch : Tx → Option Nat
  | ack b _ | chained b _ _ _ => some b
  | _ => none

def moved : Tx → List Nat
  | written _ _ m => m
  | _ => []

end Tx

/-- A `stream_rotate` that holds the advisory lock (`stream.go:548-558`). -/
inductive Rotation where
  | locked (began : Nat)
  /-- The checks have let `target` be truncated; `xid` is the transaction's own. -/
  | checked (target xid began : Nat)
deriving DecidableEq, Repr

def Rotation.xid? : Rotation → Option Nat
  | locked _ => none
  | checked _ x _ => some x

structure World where
  xid : Nat
  now : Nat
  maxRetries : Nat
  retention : Nat
  cur : Cursors
  seg : Segments
  hist : History
  txs : List Tx
  rotation : Option Rotation

/-! ## Reading -/

namespace Cursors

variable (cur : Cursors)

def sub? (c : Nat) : Option Sub := cur.subs.find? (·.consumer = c)

/-- `schema.sql:822-831`. -/
def latestTick : Option Nat := (cur.ticks.map (·.id)).max?

def oldestTick : Option Nat := (cur.ticks.map (·.id)).min?

/-- `target` of `stream_subscribe`; a tick that is not there is an error (`PV004`). The oldest tick
is never deleted. -/
def target : Option Nat → Option Nat
  | none => cur.latestTick
  | some 0 => cur.oldestTick
  | some n => if ∃ t ∈ cur.ticks, t.id = n then some n else none

def of (c : Nat) : List Batch := cur.batches.filter (·.consumer = c)

def allAcked (c : Nat) : Prop := ∀ b ∈ cur.batches, b.consumer = c → b.acked = true

instance (c : Nat) : Decidable (cur.allAcked c) := inferInstanceAs (Decidable (∀ b ∈ cur.batches, _))

/-- `end_at`: the latest tick after `startAt`. -/
def endAt (startAt : Nat) : Option Nat := ((cur.ticks.map (·.id)).filter (startAt < ·)).max?

/-- No cursor or batch names the tick, and it is not the oldest. -/
def unused (t : Tick) : Prop :=
  cur.oldestTick ≠ some t.id ∧ (∀ s ∈ cur.subs, s.lastTick ≠ t.id) ∧ ∀ b ∈ cur.batches, b.startTick ≠ t.id ∧ b.endTick ≠ t.id

instance (t : Tick) : Decidable (cur.unused t) := inferInstanceAs (Decidable (_ ∧ _))

/-- What `stream_prune_ticks` deletes. -/
def prunable (retention began limit : Nat) : List Nat :=
  let first := (((cur.ticks.map (·.id)).filter (cur.oldestTick ≠ some ·)).insertionSort (· ≤ ·)).take limit
  (cur.ticks.filter fun t => cur.unused t ∧ t.createdAt + retention < began ∧ t.id ∈ first).map (·.id)

end Cursors

def Receive.sub (r : Receive) (cur : Cursors) : Option Sub :=
  if r.fresh then some ⟨r.consumer, r.lastSeen, r.lastSeen⟩ else cur.sub? r.consumer

/-- The recursive query of `stream_ack`: the acked batches on the paths from `tick`. A path has no
more batches than there are, since each ends after it starts. -/
def follow (acked : List Batch) : Nat → Nat → List Batch
  | 0, _ => []
  | n + 1, tick => (acked.filter (·.startTick = tick)).flatMap fun b => b :: follow acked n b.endTick

def mark (batches : List Batch) (id : Nat) : List Batch := batches.map fun b => if b.id = id then { b with acked := true } else b

/-- `chained`, from the `last_tick` of the owner, while `batch` is acked by the transaction itself.
-/
def Cursors.chain (cur : Cursors) (batch owner base : Nat) : List Batch :=
  let acked := (mark cur.batches batch).filter fun b => b.consumer = owner ∧ b.acked
  follow acked acked.length base

/-- `chain_end`. -/
def chainEnd (chain : List Batch) : Nat := (chain.map (·.endTick)).foldr max 0

namespace World

variable (w : World)

/-- The xids that are drawn and not finished. -/
def running : List Nat := w.txs.filterMap Tx.xid ++ (w.rotation.bind Rotation.xid?).toList

/-- `pg_current_snapshot()`. -/
def snapshot : Snapshot := .take w.xid w.running

/-- There is an event that the current snapshot sees and the tick at `startAt` does not. -/
def visible (startAt : Nat) : Prop :=
  ∃ e ∈ w.seg.events, ∃ lt ∈ w.cur.ticks, lt.id = startAt ∧ Snapshot.diff lt.snapshot w.snapshot e.txid

instance (startAt : Nat) : Decidable (w.visible startAt) := inferInstanceAs (Decidable (∃ e ∈ w.seg.events, _))

/-- The events between the two ticks, if both rows are there (`stream.go:273-303`). -/
def collect (startAt endAt : Nat) (own : Option Tick) : List Nat :=
  let ticks := w.cur.ticks ++ own.toList
  (w.seg.events.filter fun e => ∃ lt ∈ ticks, lt.id = startAt ∧ ∃ ct ∈ ticks, ct.id = endAt ∧
    Snapshot.diff lt.snapshot ct.snapshot e.txid).map (·.seq)

/-- The segment was never sealed, or a subscription holds it back. -/
def pinned (target : Nat) : Prop :=
  ∀ x ∈ (w.seg.sealedXid target).toList, ∃ s ∈ w.cur.subs,
    (∀ t ∈ w.cur.ticks, t.id ≠ s.lastTick) ∨ ∃ t ∈ w.cur.ticks, t.id = s.lastTick ∧ t.snapshot.xmin ≤ x

instance (target : Nat) : Decidable (w.pinned target) := inferInstanceAs (Decidable (∀ x ∈ (w.seg.sealedXid target).toList, _))

def batched (target : Nat) : Prop :=
  ∃ b ∈ w.cur.batches, ∃ q ∈ b.seqs, ∃ e ∈ w.seg.events, e.seq = q ∧ e.segment = target

instance (target : Nat) : Decidable (w.batched target) := inferInstanceAs (Decidable (∃ b ∈ w.cur.batches, _))

def rowFree (c : Nat) : Prop := ∀ t ∈ w.txs, t.row ≠ some c

instance (c : Nat) : Decidable (w.rowFree c) := inferInstanceAs (Decidable (∀ t ∈ w.txs, _))

/-! ## Writing -/

def set (i : Nat) (t : Tx) : World := { w with txs := w.txs.set i t }

/-- Events with new sequence numbers, for a transaction that draws its xid here. -/
def write (i segment : Nat) (rows : List (Nat × Nat)) (moved : List Nat) : World :=
  let events := rows.mapIdx fun k r => (⟨w.seg.eventSeq + k, segment, w.xid, r.1, r.2⟩ : Event)
  { w.set i (.written w.xid events moved) with xid := w.xid + 1, seg := { w.seg with eventSeq := w.seg.eventSeq + rows.length } }

def commit (i : Nat) (rows : List Event) (moved : List Nat) : World :=
  { w.set i .idle with
    seg := { w.seg with events := w.seg.events ++ rows, retries := w.seg.retries.filter (·.id ∉ moved) }
    hist := { w.hist with log := w.hist.log ++ rows } }

def enter (c tick : Nat) : World :=
  { w with
    cur := { w.cur with subs := w.cur.subs ++ [⟨c, tick, tick⟩] }
    hist := { w.hist with origin := update w.hist.origin c (some ⟨tick, w.hist.gone⟩) } }

/-- The row that a receive may have inserted is committed. -/
def enrol (r : Receive) : World := if r.fresh then w.enter r.consumer r.lastSeen else w

/-- `stream_new_tick` after its snapshot was taken; the row is not committed yet
(`schema.sql:815-820`). -/
def newTick (i : Nat) (r : Receive) (startAt : Nat) (s : Snapshot) : World :=
  { w.set i (.receive r (.ranged startAt w.cur.tickSeq (some ⟨w.cur.tickSeq, s, r.began⟩))) with
    cur := { w.cur with tickSeq := w.cur.tickSeq + 1, snaps := update w.cur.snaps w.cur.tickSeq (some s) } }

/-- The cursor of a consumer whose receive found `seqs` up to `endAt`. -/
def advance (r : Receive) (endAt : Nat) (seqs : List Nat) (s : Sub) : Sub :=
  if s.consumer = r.consumer then
    { s with nextTick := endAt, lastTick := if seqs = [] ∧ (r.member = 0 ∨ w.cur.allAcked r.consumer) then endAt else s.lastTick }
  else s

/-- The end of a receive that has collected its events (986-1013). -/
def settle (i : Nat) (r : Receive) (startAt endAt : Nat) (own : Option Tick) (seqs : List Nat) : World :=
  let v := w.enrol r
  { v.set i .idle with
    cur := { v.cur with
      ticks := v.cur.ticks ++ own.toList
      subs := v.cur.subs.map (w.advance r endAt seqs)
      batches := if seqs = [] then v.cur.batches
        else v.cur.batches ++ [⟨v.cur.batchSeq, r.consumer, r.member, startAt, endAt, false, seqs⟩]
      batchSeq := if seqs = [] then v.cur.batchSeq else v.cur.batchSeq + 1 }
    hist := { v.hist with got := update v.hist.got r.consumer (v.hist.got r.consumer ++ seqs) } }

/-- The end of an ack (1047-1054). -/
def ackEnd (i batch c : Nat) (chain : List Batch) : World :=
  { w.set i .idle with
    cur := { w.cur with
      subs := if chain = [] then w.cur.subs
        else w.cur.subs.map fun s => if s.consumer = c
          then { s with lastTick := chainEnd chain, nextTick := max s.nextTick (chainEnd chain) }
          else s
      batches := (mark w.cur.batches batch).filter (·.id ∉ chain.map (·.id)) } }

/-- One message of an active batch is set aside: to be retried, or as a dead letter
(`stream.go:325-339`). -/
def nack (began batch eventId secs : Nat) : Option World :=
  match w.cur.batches.find? (·.id = batch) with
  | some b =>
    if b.acked ∨ ∃ t ∈ w.txs, t.batch = some batch then none
    else
      match w.seg.events.find? fun e => e.seq ∈ b.seqs ∧ e.eventId = eventId with
      | some e =>
        if w.maxRetries < e.retryCount + 1 then
          if ∃ d ∈ w.seg.dead, d.batch = batch ∧ d.eventId = eventId then some w
          else some { w with seg := { w.seg with dead := w.seg.dead ++ [⟨batch, eventId, e.retryCount + 1⟩] } }
        -- a row that a call has deleted is waited for
        else if ∃ r ∈ w.seg.retries, (r.batch = batch ∧ r.eventId = eventId) ∧ ∃ t ∈ w.txs, r.id ∈ t.moved then none
        else if ∃ r ∈ w.seg.retries, r.batch = batch ∧ r.eventId = eventId then some w
        else some { w with seg := { w.seg with
          retries := w.seg.retries ++
            [⟨w.seg.retrySeq, batch, eventId, e.retryCount + 1, began + secs⟩]
          retrySeq := w.seg.retrySeq + 1 } }
      | none => none
  | none => none

/-! ## Rotation -/

/-- The checks of `stream_rotate` (1168-1197). -/
def check (began : Nat) : World :=
  let target := (w.seg.current + 1) % 3
  if 2 * w.seg.startedAt + w.retention ≤ 2 * began ∧
    ¬ ((∃ e ∈ w.seg.events, e.segment = target) ∧ (w.pinned target ∨ w.batched target)) then
    { w with rotation := some (.checked target w.xid began), xid := w.xid + 1 }
  else { w with rotation := none }

/-- The ticks that stay after the two deletions of `stream_rotate` (1206-1211, 1217-1222). -/
def keptTicks (target began : Nat) : List Tick :=
  let passed (t : Tick) : Prop := ∃ x ∈ (w.seg.sealedXid target).toList, t.snapshot.xmin ≤ x
  let ticks := w.cur.ticks.filter fun t => ¬ (w.cur.unused t ∧ passed t)
  ticks.filter fun t => ¬ ({ w.cur with ticks }.unused t ∧ t.createdAt + w.retention < began)

/-- The truncation and what follows it, to the commit (1205-1223). -/
def truncate (target xid began : Nat) : World :=
  { w with
    cur := { w.cur with ticks := w.keptTicks target began }
    seg := { w.seg with
      events := w.seg.events.filter (·.segment ≠ target)
      sealedXid := update (update w.seg.sealedXid w.seg.current (some xid)) target none
      current := target
      startedAt := began }
    hist := { w.hist with gone := w.hist.gone ++ w.seg.events.filter (·.segment = target) }
    rotation := none }

end World

/-! ## Steps -/

inductive Request where
  | other
  | append (ids : List Nat)
  | processRetries (limit : Nat)
  | subscribe (consumer : Nat) (fromTick : Option Nat)
  | receive (consumer member limit : Nat)
  | ack (batch : Nat)
  | pruneTicks (limit : Nat)
deriving DecidableEq, Repr

/-- The first statement of a call in the idle session `i`, or its wait for the advisory lock or a
row. -/
def start (w : World) (i began : Nat) : Request → Option World
  | .other => some { w.set i (.other w.xid) with xid := w.xid + 1 }
  | .append ids => if w.rotation = none then some (w.set i (.append w.seg.current ids)) else none
  | .processRetries limit => if w.rotation = none then some (w.set i (.retries w.seg.current limit began)) else none
  | .subscribe c fromTick => if w.rotation = none then some (w.set i (.subscribe c fromTick)) else none
  | .receive c m limit => if w.rotation = none then some (w.set i (.asking ⟨c, m, limit, began, 0, false⟩)) else none
  | .ack b =>
    match w.cur.batches.find? (·.id = b) with
    | some x => if x.acked ∨ ∃ t ∈ w.txs, t.batch = some b then none else some (w.set i (.ack b x.consumer))
    | none => none
  | .pruneTicks limit => some (w.set i (.prune (w.cur.prunable w.retention began limit)))

/-- The next statement of a receive that holds the row of its consumer (`schema.sql:917-1015`). -/
def receiveStep (w : World) (i : Nat) (r : Receive) : Place → Option World
  | .owned =>
    -- the active batch of the member is returned again
    if ∃ b ∈ w.cur.batches, b.consumer = r.consumer ∧ b.member = r.member ∧ b.acked = false then some ((w.enrol r).set i .idle)
    else some (w.set i (.receive r .idle))
  | .idle =>
    match r.sub w.cur with
    | some s =>
      -- `PV003`
      if r.member = 0 ∧ r.lastSeen < s.nextTick then some (w.set i .idle)
      else
        let startAt := max s.nextTick r.lastSeen
        match w.cur.endAt startAt with
        | some endAt => some (w.set i (.receive r (.ranged startAt endAt none)))
        | none => some (w.set i (.receive r (.newest startAt)))
    | none => none
  | .newest startAt =>
    if w.visible startAt then some (w.set i (.receive r (.visible startAt))) else some ((w.enrol r).set i .idle)
  | .visible startAt => some (w.set i (.receive r (.stamped startAt w.snapshot w.cur.tickSeq)))
  | .stamped startAt s _ => some (w.newTick i r startAt s)
  | .ranged startAt endAt own =>
    let seqs := w.collect startAt endAt own
    -- `PV005`
    if r.limit < seqs.length then some (w.set i .idle) else some (w.set i (.receive r (.collected startAt endAt own seqs)))
  | .collected startAt endAt own seqs => some (w.settle i r startAt endAt own seqs)

def exec (w : World) (i : Nat) : Tx → Option World
  | .idle => none
  | .other _ => some (w.set i .idle)
  | .append segment ids => some (w.write i segment (ids.map (·, 0)) [])
  | .retries segment limit began =>
    let due := (w.seg.retries.filter (·.dueAt ≤ began)).insertionSort (·.dueAt ≤ ·.dueAt)
    some (w.set i (.due segment ((due.take limit).map (·.id))))
  | .due segment picked =>
    -- a row that another call has deleted is waited for
    if ∃ t ∈ w.txs, ∃ id ∈ picked, id ∈ t.moved then none
    else
      let rows := w.seg.retries.filter (·.id ∈ picked)
      some (w.write i segment (rows.map fun r => (r.eventId, r.retryCount)) (rows.map (·.id)))
  | .written _ rows moved => some (w.commit i rows moved)
  | .subscribe c fromTick =>
    match w.cur.target fromTick with
    | some target => some (w.set i (.placed c target))
    | none => some (w.set i .idle)
  | .placed c target =>
    if (w.cur.sub? c).isSome then some (w.set i .idle)
    else if w.rowFree c then some ((w.enter c target).set i .idle)
    else none
  | .asking r =>
    match w.cur.sub? r.consumer with
    | some s => if w.rowFree r.consumer then some (w.set i (.receive { r with lastSeen := s.lastTick } .owned)) else none
    | none => some (w.set i (.missing r))
  | .missing r =>
    match w.cur.latestTick with
    | some t => some (w.set i (.latest { r with lastSeen := t }))
    | none => none
  | .latest r =>
    if w.rowFree r.consumer then
      if (w.cur.sub? r.consumer).isSome then some (w.set i .idle)
      else some (w.set i (.receive { r with fresh := true } .owned))
    else none
  | .receive r p => receiveStep w i r p
  | .ack b c =>
    match w.cur.sub? c with
    | some s => some (w.set i (.chained b c s.lastTick (w.cur.chain b c s.lastTick)))
    | none => none
  | .chained b c _ chain => if chain = [] ∨ w.rowFree c then some (w.ackEnd i b c chain) else none
  | .prune ids => some { w.set i .idle with cur := { w.cur with ticks := w.cur.ticks.filter (·.id ∉ ids) } }

inductive Act where
  /-- A new connection. -/
  | connect
  | elapse (time : Nat)
  | start (i began : Nat) (r : Request)
  | run (i : Nat)
  /-- An error or a lost connection: the call is rolled back. -/
  | abort (i : Nat)
  | nack (began batch eventId secs : Nat)
  /-- `stream_rotate` gets the advisory lock. -/
  | rotate (began : Nat)
  | check
  | truncate
  /-- `lock_not_available`, or an error. -/
  | giveUp
deriving DecidableEq, Repr

def next (w : World) : Act → Option World
  | .connect => some { w with txs := w.txs ++ [.idle] }
  | .elapse time => some { w with now := w.now + time }
  | .start i began r =>
    match w.txs[i]? with
    | some .idle => if began ≤ w.now then start w i began r else none
    | _ => none
  | .run i =>
    match w.txs[i]? with
    | some t => exec w i t
    | none => none
  | .abort i => some (w.set i .idle)
  | .nack began batch eventId secs => if began ≤ w.now then w.nack began batch eventId secs else none
  | .rotate began =>
    if w.rotation = none ∧ began ≤ w.now ∧ ∀ t ∈ w.txs, t.shared = false then some { w with rotation := some (.locked began) } else none
  | .check =>
    match w.rotation with
    | some (.locked began) => some (w.check began)
    | _ => none
  | .truncate =>
    match w.rotation with
    | some (.checked target xid began) => some (w.truncate target xid began)
    | _ => none
  | .giveUp => some { w with rotation := none }

/-- A new queue: its tick 1 sees what was committed before. -/
def World.init (maxRetries retention : Nat) : World where
  xid := 1
  now := 0
  maxRetries := maxRetries
  retention := retention
  cur := ⟨[⟨1, .take 1 [], 0⟩], 2, update (fun _ => none) 1 (some (.take 1 [])), [], [], 1⟩
  seg := ⟨0, 0, fun _ => none, [], 1, [], 1, []⟩
  hist := ⟨[], [], fun _ => none, fun _ => []⟩
  txs := []
  rotation := none

abbrev machine : Conc.Machine := ⟨World, Act, next⟩

/-- A call in session `i` and its next `n` statements. -/
def call (i n : Nat) (r : Request) : List Act := .start i 0 r :: List.replicate n (.run i)

end Pgvs3.Stream
