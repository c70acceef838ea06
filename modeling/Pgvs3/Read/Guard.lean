import Pgvs3.Codec.Transparent
import Pgvs3.Conc.Machine
/-!
# Read guards

A session keeps its advisory locks until it releases them or is closed, whatever becomes of the
statement that took them, which takes one after the other; a reaper's lock goes with its
transaction. A query outside a transaction sees the rows committed at its beginning, an exported
snapshot those committed when it was taken, and it can be imported while the exporting transaction
lasts.

What the reapers find in `garbage` and whether it is referenced is left open. A standby replays what
the reapers of its primary have deleted, whatever its sessions have locked.
-/

namespace Pgvs3.Guard

open Codec (ChunkRow Piece RawRow getRange)

/-- Read pins are locks in a key space of 31 bits (`readguard.go:24`). -/
def pinKey (fileID : Int64) : Int32 := ((fileID ^^^ (fileID >>> 31)) &&& 0x7fffffff).toInt32

/-- `slices.Compact`. -/
def compact {α : Type} [DecidableEq α] : List α → List α
  | a :: b :: l => if a = b then compact (b :: l) else a :: compact (b :: l)
  | l => l

/-- `readguard.go:26-33`. -/
def pinKeys (pieces : List Piece) : List Int32 :=
  compact ((pieces.map fun p => pinKey p.fileID).insertionSort (· ≤ ·))

def maxPinnedFiles : Nat := 64

structure Server where
  /-- The server is a standby. -/
  inRecovery : Bool
  forceSnapshotReads : Bool

/-! ## Sessions -/

/-- What a read has a session for: its guard, or one of its workers. -/
abbrev Slot := Option Nat

inductive Owner where
  | pool
  | closed
  | lent (read : Nat) (slot : Slot)
deriving DecidableEq, Repr

structure Session where
  owner : Owner
  pins : List Int32
deriving DecidableEq, Repr

/-- What a step of a read does to a session. -/
inductive SessionOp where
  | keep
  | take (slot : Slot) (c : Nat)
  | release (slot : Slot)
  | destroy (slot : Slot)
  | lock (key : Int32)
  | unlock (keys : List Int32)
deriving DecidableEq, Repr

/-! ## A read -/

/-- The lead works on the guard's session, which is `none` here. -/
inductive Worker where
  | waiting
  /-- `join` has a connection. -/
  | connected (c : Nat)
  /-- `join` has what it needs and is about to count itself. -/
  | imported (c : Nat)
  | gaveUp (err : Bool)
  | working (c : Option Nat)
  | claimed (c : Option Nat) (piece : Nat)
  | leaving (c : Option Nat)
  | finished
deriving DecidableEq, Repr

def Worker.conn : Worker → Option Nat
  | .connected c | .imported c => some c
  | .working c | .claimed c _ | .leaving c => c
  | .waiting | .gaveUp _ | .finished => none

/-- The worker has not counted itself: a helper before the end of `join`, the lead before its end.
-/
def Worker.unjoined : Worker → Bool
  | .waiting | .connected _ | .imported _ | .gaveUp _ => true
  | .working c | .claimed c _ | .leaving c => c.isNone
  | .finished => false

inductive Phase where
  | acquiring
  | pinning (todo got : List Int32)
  | unpinning
  /-- The session was closed; another one is needed. -/
  | reacquiring
  | exporting
  | running
  /-- The pins are gone; the session is not returned yet. -/
  | releasing
  | done (err : Bool)
deriving DecidableEq, Repr

/-- `readguard.go:41-49`. -/
structure Read where
  /-- The pieces that need a query. -/
  pieces : List Piece
  phase : Phase
  conn : Option Nat
  keys : List Int32
  /-- The exported snapshot. -/
  snap : Option (List ChunkRow)
  /-- The exporting transaction has ended. -/
  ended : Bool
  pending : Int
  workers : List Worker
  /-- The next piece to claim. -/
  next : Nat
  /-- The rows that the queries have returned, by piece. -/
  answers : List (Nat × List RawRow)
  failed : Bool
  /-- The table when the guard was acquired; nobody reads it. -/
  base : List ChunkRow
deriving DecidableEq, Repr

inductive ReadAct where
  | acquire (c : Nat)
  | noConn
  | pin
  | pinFails
  | unpin (ok : Bool)
  | exportSnapshot
  | exportFails
  | lead
  | join (i c : Nat)
  | giveUp (i : Nat) (err : Bool)
  | importSnapshot (i : Nat)
  | importFails (i : Nat) (err : Bool)
  | joined (i : Nat)
  | claim (i : Nat)
  | query (i : Nat) (rows : List RawRow)
  | queryFails (i : Nat)
  | leave (i : Nat)
  | close (ok : Bool)
  | release
deriving DecidableEq, Repr

namespace Read

def start (pieces : List Piece) (workers : Nat) : Read :=
  { pieces := pieces, phase := .acquiring, conn := none, keys := [], snap := none, ended := false, pending := workers
    workers := List.replicate workers .waiting, next := 0, answers := [], failed := false, base := [] }

def uses (rd : Read) : Slot → Option Nat
  | none => rd.conn
  | some i => (rd.workers[i]?).bind Worker.conn

def put (rd : Read) (i : Nat) (wk : Worker) : Read := { rd with workers := rd.workers.set i wk }

/-- `readguard.go:184-194`. -/
def endExport (rd : Read) : Read × SessionOp :=
  if rd.ended then (rd, .keep) else ({ rd with ended := true, conn := none }, .release none)

/-- `readguard.go:178-182`. -/
def joined (rd : Read) : Read × SessionOp :=
  let rd := { rd with pending := rd.pending - 1 }
  if rd.pending = 0 ∧ rd.snap.isSome then rd.endExport else (rd, .keep)

def allClaimed (rd : Read) : Bool := rd.pieces.length < rd.next

/-- What the queries of this read look at. -/
def sees (rd : Read) (chunks : List ChunkRow) : List ChunkRow := rd.snap.getD chunks

/-- A step of a guard before the workers run (`readguard.go:51-101`). -/
def opens (srv : Server) (chunks : List ChunkRow) (free : Int32 → Bool) (rd : Read) : Phase → ReadAct → Option (Read × SessionOp)
  | .acquiring, .acquire c =>
    let pins := !srv.forceSnapshotReads && !srv.inRecovery && (pinKeys rd.pieces).length ≤ maxPinnedFiles
    some ({ rd with conn := some c, phase := if pins then .pinning (pinKeys rd.pieces) [] else .exporting }, .take none c)
  | .reacquiring, .acquire c => some ({ rd with conn := some c, phase := .exporting }, .take none c)
  | .acquiring, .noConn | .reacquiring, .noConn => some ({ rd with phase := .done true }, .keep)
  | .pinning (k :: todo) got, .pin =>
    if free k then some ({ rd with phase := .pinning todo (got ++ [k]) }, .lock k)
    else some ({ rd with phase := .pinning todo got }, .keep)
  | .pinning [] got, .pin =>
    if got.length = (pinKeys rd.pieces).length then some ({ rd with keys := got, phase := .running, base := chunks }, .keep)
    else if got = [] then some ({ rd with phase := .exporting }, .keep)
    else some ({ rd with keys := got, phase := .unpinning }, .keep)
  | .pinning _ _, .pinFails => some ({ rd with conn := none, phase := .done true }, .release none)
  | .unpinning, .unpin ok =>
    if ok then some ({ rd with keys := [], phase := .exporting }, .unlock rd.keys)
    else some ({ rd with keys := [], conn := none, phase := .reacquiring }, .destroy none)
  | .exporting, .exportSnapshot => some ({ rd with snap := some chunks, phase := .running, base := chunks }, .keep)
  | .exporting, .exportFails => some ({ rd with conn := none, phase := .done true }, .release none)
  | _, _ => none

/-- `store/object.go:966-1096`. -/
def works (chunks : List ChunkRow) (rd : Read) (i : Nat) : Worker → ReadAct → Option (Read × SessionOp)
  | .waiting, .lead => if i = 0 then some (rd.put i (.working none), .keep) else none
  | .waiting, .join _ c => if i = 0 then none else some (rd.put i (.connected c), .take (some i) c)
  | .waiting, .giveUp _ err => if i ≠ 0 ∧ (err ∨ rd.allClaimed) then some (rd.put i (.gaveUp err), .keep) else none
  | .connected c, .importSnapshot _ =>
    -- without an export there is nothing to import; an export that has ended cannot be imported
    if rd.ended then some (rd.put i (.gaveUp true), .release (some i)) else some (rd.put i (.imported c), .keep)
  | .connected _, .importFails _ err =>
    if err ∨ rd.allClaimed then some (rd.put i (.gaveUp err), .release (some i)) else none
  | .imported c, .joined _ => some (rd.put i (.working (some c))).joined
  | .gaveUp err, .joined _ => some ({ rd.put i .finished with failed := rd.failed || err }).joined
  | .working c, .claim _ =>
    if rd.failed then some (rd.put i (.leaving c), .keep)
    else if rd.next < rd.pieces.length then some ({ rd.put i (.claimed c rd.next) with next := rd.next + 1 }, .keep)
    else some ({ rd.put i (.leaving c) with next := rd.next + 1 }, .keep)
  | .claimed c j, .query _ rows =>
    match rd.pieces[j]? with
    | none => none
    | some p =>
      -- the lead of an exporting read queries in the exporting transaction
      if (c.isSome ∨ !rd.ended) ∧ rows.Perm (getRange (rd.sees chunks) p) then
        some ({ rd.put i (.working c) with answers := rd.answers ++ [(j, rows)] }, .keep)
      else none
  | .claimed c _, .queryFails _ => some ({ rd.put i (.leaving c) with failed := true }, .keep)
  | .leaving none, .leave _ => some (rd.put i .finished).joined
  | .leaving (some _), .leave _ => some (rd.put i .finished, .release (some i))
  | _, _ => none

/-- `close`, which comes after all workers (`readguard.go:219-229`). -/
def closes (rd : Read) (ok : Bool) : Read × SessionOp :=
  match rd.snap with
  | some _ => ({ rd.endExport.1 with phase := .done rd.failed }, rd.endExport.2)
  | none =>
    if ok then ({ rd with keys := [], phase := .releasing }, .unlock rd.keys)
    else ({ rd with keys := [], conn := none, phase := .done rd.failed }, .destroy none)

def worker : ReadAct → Option Nat
  | .lead => some 0
  | .join i _ | .giveUp i _ | .importSnapshot i | .importFails i _ | .joined i | .claim i | .query i _ | .queryFails i | .leave i => some i
  | _ => none

def step (srv : Server) (chunks : List ChunkRow) (free : Int32 → Bool) (rd : Read) (a : ReadAct) : Option (Read × SessionOp) :=
  match rd.phase, a with
  | .running, .close ok => if rd.workers.all (· == .finished) then some (rd.closes ok) else none
  | .running, a =>
    match worker a with
    | none => none
    | some i =>
      match rd.workers[i]? with
      | none => none
      | some wk => rd.works chunks i wk a
  | .releasing, .release => some ({ rd with conn := none, phase := .done rd.failed }, .release none)
  | phase, a => rd.opens srv chunks free phase a

end Read

/-! ## The reapers and the table -/

/-- `store.go:1744-1798`. -/
inductive Reaper where
  | idle
  | claiming (candidates : List Int64)
  /-- The file's lock is held. -/
  | claimed (id : Int64)
  /-- Rows of the file are deleted and not committed. -/
  | deleted (id : Int64) (rows : List ChunkRow)
deriving DecidableEq, Repr

def Reaper.holds : Reaper → Option Int32
  | .claimed id | .deleted id _ => some (pinKey id)
  | .idle | .claiming _ => none

inductive ReapAct where
  | candidates (ids : List Int64)
  | claim
  /-- The file is referenced, or these of its rows go. -/
  | delete (referenced : Bool) (rows : List ChunkRow)
  | commit
  | rollback
deriving DecidableEq, Repr

inductive Act where
  | start (pieces : List Piece) (workers : Nat)
  | read (r : Nat) (a : ReadAct)
  | reap (k : Nat) (a : ReapAct)
  | write (rows : List ChunkRow)
  | replay (rows : List ChunkRow)
deriving DecidableEq, Repr

structure World where
  chunks : List ChunkRow
  sessions : List Session
  reapers : List Reaper
  reads : List Read
deriving DecidableEq, Repr

namespace World

def remove (w : World) (rows : List ChunkRow) : World := { w with chunks := w.chunks.filter fun r => !rows.contains r }

def free (w : World) (key : Int32) : Bool := w.reapers.all fun rp => rp.holds != some key

def unpinned (w : World) (key : Int32) : Bool := w.free key && w.sessions.all fun s => !s.pins.contains key

def session (w : World) (r : Nat) (rd : Read) : SessionOp → Option (List Session)
  | .keep => some w.sessions
  | .take slot c =>
    match w.sessions[c]? with
    | some s => if s.owner = .pool then some (w.sessions.set c { s with owner := .lent r slot }) else none
    | none => none
  | .release slot => change (rd.uses slot) fun s => { s with owner := .pool }
  | .destroy slot => change (rd.uses slot) fun _ => ⟨.closed, []⟩
  | .lock key => change rd.conn fun s => { s with pins := s.pins ++ [key] }
  | .unlock keys => change rd.conn fun s => { s with pins := s.pins.diff keys }
where
  change (c : Option Nat) (f : Session → Session) : Option (List Session) :=
    match c with
    | none => none
    | some c => (w.sessions[c]?).map fun s => w.sessions.set c (f s)

def reap (w : World) (k : Nat) (rp : Reaper) : ReapAct → Option World
  | .candidates ids => if rp = .idle then some { w with reapers := w.reapers.set k (.claiming ids) } else none
  | .claim =>
    match rp with
    | .claiming [] => some { w with reapers := w.reapers.set k .idle }
    | .claiming (id :: ids) =>
      some { w with reapers := w.reapers.set k (if w.unpinned (pinKey id) then .claimed id else .claiming ids) }
    | _ => none
  | .delete referenced rows =>
    match rp with
    | .claimed id =>
      if referenced then some { w with reapers := w.reapers.set k .idle }
      else if rows.all (·.fileID == id) then some { w with reapers := w.reapers.set k (.deleted id rows) }
      else none
    | _ => none
  | .commit =>
    match rp with
    | .deleted _ rows => some { w.remove rows with reapers := w.reapers.set k .idle }
    | _ => none
  | .rollback => some { w with reapers := w.reapers.set k .idle }

def next? (srv : Server) (w : World) : Act → Option World
  | .start pieces workers =>
    if 0 < workers then some { w with reads := w.reads ++ [Read.start pieces workers] } else none
  | .read r a =>
    match w.reads[r]? with
    | none => none
    | some rd =>
      match rd.step srv w.chunks w.free a with
      | none => none
      | some (rd', op) =>
        match w.session r rd op with
        | none => none
        | some sessions => some { w with sessions := sessions, reads := w.reads.set r rd' }
  | .reap k a =>
    if srv.inRecovery then none
    else
      match w.reapers[k]? with
      | none => none
      | some rp => w.reap k rp a
  -- a file gets its rows before anything refers to it
  | .write rows =>
    if rows.all fun x => w.reads.all fun rd => rd.pieces.all fun p => p.fileID != x.fileID then some { w with chunks := w.chunks ++ rows }
    else none
  | .replay rows => if srv.inRecovery then some (w.remove rows) else none

/-- A pool of idle sessions, and reapers that have not begun. -/
def start (chunks : List ChunkRow) (sessions reapers : Nat) : World :=
  ⟨chunks, List.replicate sessions ⟨.pool, []⟩, List.replicate reapers .idle, []⟩

end World

abbrev machine (srv : Server) : Conc.Machine := ⟨World, Act, World.next? srv⟩

/-- A statement that pins and fails has not pinned anything. -/
def failsClean (w : World) : Act → Bool
  | .read r .pinFails =>
    match w.reads[r]? with
    | some rd =>
      match rd.phase with
      | .pinning _ got => got == []
      | _ => true
    | none => true
  | _ => true

end Pgvs3.Guard
