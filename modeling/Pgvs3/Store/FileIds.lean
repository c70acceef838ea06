import Mathlib
import Pgvs3.Conc.Machine
/-!
# File ids

The sequence is `s3p.file_ids` (`store/schema.sql:1344-1349`, `CACHE 64`), a gateway's steps are
those of `nextFileID` (`store/store.go:313-339`), the jobs `adopt_namespace` and `clone_namespace`
(`store/schema.sql:48-75`, `136-179`).

Each `nextval`, `setval` and read of `last_value` is a step of its own that no rollback undoes. A
session keeps the values that its last `nextval` has reserved, a gateway the rest of its block of
64. The advisory lock `s3p.ns:cap` lets at most one adoption or clone run at a time. Uploads are
only what they leave: an id that was handed out, in some namespace.
-/

namespace Pgvs3.FileIds

open Function

structure Gateway where
  /-- `fileIDBlock` from `fileIDPos` on. -/
  block : List Nat
  /-- The refill that holds `fileIDMu`: its session and the rows of its query so far. -/
  refill : Option (Nat × List Nat)
deriving DecidableEq, Repr

structure Schema where
  /-- It has a row in `s3p.namespaces`. -/
  registered : Bool
  chunks : List Nat
  refs : List Nat
deriving DecidableEq, Repr

def Schema.files (x : Schema) : List Nat := x.chunks ++ x.refs

inductive Task where
  | adopt (ns : Nat)
  | clone (src dst : Nat)
deriving DecidableEq, Repr

inductive Stage where
  /-- The advisory lock is held and the preconditions have been checked. -/
  | locked
  /-- The chunk rows have been copied (`clone`). -/
  | copied
  /-- `max(file_id)` has been read. -/
  | counted
  /-- `last_value` has been read. -/
  | looked (last : Nat)
  | moved
deriving DecidableEq, Repr

structure Job where
  task : Task
  session : Nat
  stage : Stage
  /-- What a clone has copied. -/
  chunks : List Nat
  refs : List Nat
  /-- The chunk rows over which the maximum is taken. -/
  seen : List Nat
deriving DecidableEq, Repr

/-- `v_max`, `v_max_id`. -/
def Job.vMax (j : Job) : Nat := j.seen.foldr max 0

/-- `v_max > 0`, or `v_max_id IS NOT NULL`. -/
def Job.moves (j : Job) : Bool :=
  match j.task with
  | .adopt _ => 0 < j.vMax
  | .clone _ _ => j.seen ≠ []

inductive Event where
  /-- An upload got this id. -/
  | handed (id : Nat)
  /-- An adoption or a clone has committed, and the namespace holds these files. -/
  | settled (ids : List Nat)
deriving DecidableEq, Repr

structure World where
  last : Nat
  called : Bool
  /-- What each session has reserved and not yet returned. -/
  cache : Nat → List Nat
  gate : Nat → Gateway
  schema : Nat → Option Schema
  job : Option Job
  /-- The newest event first. -/
  log : List Event

def World.init : World := ⟨1, false, fun _ => [], fun _ => ⟨[], none⟩, fun _ => none, none, []⟩

def handedIds : List Event → List Nat
  | [] => []
  | .handed id :: log => id :: handedIds log
  | .settled _ :: log => handedIds log

def settledIds : List Event → List Nat
  | [] => []
  | .handed _ :: log => settledIds log
  | .settled ids :: log => ids ++ settledIds log

/-- No id is handed out twice, and none that a namespace held when its adoption or clone committed.
-/
def Unique : List Event → Prop
  | [] => True
  | .handed id :: log => id ∉ handedIds log ∧ id ∉ settledIds log ∧ Unique log
  | .settled _ :: log => Unique log

instance decidableUnique : (log : List Event) → Decidable (Unique log)
  | [] => .isTrue trivial
  | .handed _ :: log => @instDecidableAnd _ _ _ (@instDecidableAnd _ _ _ (decidableUnique log))
  | .settled _ :: log => decidableUnique log

namespace World

variable (w : World)

/-- The next value that nobody has reserved. -/
def upcoming : Nat := if w.called then w.last + 1 else w.last

def cacheSize : Nat := 64

/-- A session with nothing left reserves the next values. -/
def reserve (s : Nat) : World :=
  if w.cache s = [] then
    { w with last := w.upcoming + cacheSize - 1, called := true, cache := update w.cache s (List.range' w.upcoming cacheSize) }
  else w

def setGate (g : Nat) (x : Gateway) : World := { w with gate := update w.gate g x }

def hand (id : Nat) : World := { w with log := .handed id :: w.log }

/-- `nextval` in the session of the refill of `g`, whose query has returned `rows`
(`schema.sql:1344`). -/
def nextval (g s : Nat) (rows : List Nat) : Option World :=
  match (w.reserve s).cache s with
  | [] => none
  | id :: rest => some { (w.reserve s).setGate g { w.gate g with refill := some (s, rows ++ [id]) } with
      cache := update (w.reserve s).cache s rest }

def setSchema (ns : Nat) (x : Option Schema) : World := { w with schema := update w.schema ns x }

end World

inductive Act where
  /-- `nextFileID` with ids left in the block. -/
  | take (g : Nat)
  /-- `nextFileID` with none left: the query begins in session `s`. -/
  | query (g s : Nat)
  | nextval (g : Nat)
  | install (g : Nat)
  /-- The query fails, and its rows are lost. -/
  | fail (g : Nat)
  | restart (g : Nat)
  | close (s : Nat)
  /-- An upload that got `id` commits; `rows` tells whether the file has chunk rows. -/
  | publish (ns id : Nat) (rows : Bool)
  /-- A schema from a dump appears. -/
  | restore (ns : Nat) (chunks refs : List Nat)
  | create (ns : Nat)
  | drop (ns : Nat)
  /-- A file is reaped, or what names it is deleted. -/
  | remove (ns id : Nat)
  | lock (task : Task) (s : Nat)
  | chunks
  | objects
  | look
  | setval
  | commit
  | rollback
deriving DecidableEq, Repr

/-- `generate_series(1,64)`. -/
def blockSize : Nat := 64

def canStart (w : World) : Task → Bool
  | .adopt ns => (w.schema ns).any fun x => !x.registered
  | .clone src dst => src ≠ dst && (w.schema src).any (·.registered) && (w.schema dst).all fun x => x.registered && x.refs = []

/-- The locks of the job keep the schema from being dropped, and one of its name from appearing. -/
def pinned (w : World) (ns : Nat) : Bool :=
  w.job.any fun j =>
    match j.task with
    | .adopt a => a = ns
    | .clone src dst => src = ns || dst = ns

def settle (w : World) (j : Job) : Option World :=
  match j.task with
  | .adopt ns => (w.schema ns).map fun x => { w.setSchema ns (some { x with registered := true }) with
      job := none, log := .settled x.files :: w.log }
  | .clone _ dst =>
    let old := (w.schema dst).getD ⟨true, [], []⟩
    let new : Schema := ⟨true, old.chunks ++ j.chunks, old.refs ++ j.refs⟩
    some { w.setSchema dst (some new) with job := none, log := .settled new.files :: w.log }

/-- `store.go:315-339`. -/
def next (w : World) : Act → Option World
  | .take g =>
    match w.gate g with
    | ⟨id :: rest, none⟩ => some ((w.setGate g ⟨rest, none⟩).hand id)
    | _ => none
  | .query g s =>
    match w.gate g with
    | ⟨[], none⟩ => some (w.setGate g ⟨[], some (s, [])⟩)
    | _ => none
  | .nextval g =>
    match (w.gate g).refill with
    | some (s, rows) => if rows.length < blockSize then w.nextval g s rows else none
    | none => none
  | .install g =>
    match (w.gate g).refill with
    | some (_, id :: rest) => if rest.length + 1 = blockSize then some ((w.setGate g ⟨rest, none⟩).hand id) else none
    | _ => none
  | .fail g =>
    match (w.gate g).refill with
    | some _ => some (w.setGate g ⟨[], none⟩)
    | none => none
  | .restart g => some (w.setGate g ⟨[], none⟩)
  | .close s => some { w with cache := update w.cache s [] }
  | .publish ns id rows =>
    if id ∈ handedIds w.log then
      (w.schema ns).map fun x =>
        w.setSchema ns (some { x with chunks := if rows then id :: x.chunks else x.chunks, refs := id :: x.refs })
    else none
  | .restore ns chunks refs =>
    if w.schema ns = none ∧ pinned w ns = false
    then some (w.setSchema ns (some ⟨false, chunks, refs⟩)) else none
  | .create ns => if w.schema ns = none ∧ pinned w ns = false then some (w.setSchema ns (some ⟨true, [], []⟩)) else none
  | .drop ns => if pinned w ns then none else some (w.setSchema ns none)
  | .remove ns id =>
    (w.schema ns).map fun x => w.setSchema ns (some { x with chunks := x.chunks.filter (· ≠ id), refs := x.refs.filter (· ≠ id) })
  | .lock task s => if w.job = none ∧ canStart w task then some { w with job := some ⟨task, s, .locked, [], [], []⟩ } else none
  | .chunks =>
    match w.job with
    | some j =>
      if j.stage = .locked then
        match j.task with
        | .adopt ns => (w.schema ns).map fun x => { w with job := some { j with stage := .counted, seen := x.chunks } }
        | .clone src _ => (w.schema src).map fun x => { w with job := some { j with stage := .copied, chunks := x.chunks } }
      else none
    | none => none
  | .objects =>
    match w.job with
    | some j =>
      match j.task with
      | .clone src dst =>
        if j.stage = .copied then
          (w.schema src).map fun x => { w with job := some { j with
            stage := .counted, refs := x.refs, seen := ((w.schema dst).map (·.chunks)).getD [] ++ j.chunks } }
        else none
      | .adopt _ => none
    | none => none
  | .look =>
    match w.job with
    | some j => if j.stage = .counted ∧ j.moves then some { w with job := some { j with stage := .looked w.last } } else none
    | none => none
  | .setval =>
    match w.job with
    | some j =>
      match j.stage with
      | .looked l => some { w with
          last := max l j.vMax, called := true, cache := update w.cache j.session [], job := some { j with stage := .moved } }
      | _ => none
    | none => none
  | .commit =>
    match w.job with
    | some j => if j.stage = .moved ∨ (j.stage = .counted ∧ j.moves = false) then settle w j else none
    | none => none
  | .rollback => if w.job = none then none else some { w with job := none }

def machine : Conc.Machine := ⟨World, Act, next⟩

end Pgvs3.FileIds
