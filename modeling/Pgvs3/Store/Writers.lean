import Pgvs3.Conc.Outline
import Pgvs3.Store.Publish
/-!
# Concurrent writers of one key of a native bucket

`publishValue` is `schema.sql:436-516`.

A statement that has to wait is not enabled until it can go on; any statement may also fail, which
rolls the transaction back. `SELECT .. FOR UPDATE` of an absent row answers at once, whether or not
another transaction has inserted the row; of an existing row it waits for the row lock and reads the
last committed version. The upsert waits for the transaction that holds the row or has inserted it.
-/

namespace Pgvs3.Writers

open Conc

/-- A row of a native bucket; origin versions play no part, the body is a file id. -/
abbrev Row := ObjectRow Text Nat

/-- Which of the two spellings of the schema a path hashes into its advisory lock. -/
inductive Family where
  | sql
  | go
deriving DecidableEq, Repr

/-- The precondition of a path, of the row `r`, read at time `at_`. -/
def holdsOf (f : Family) (pre : Precondition) (at_ : Nat) (r : Option Row) : Bool :=
  match f with
  | .sql => pre.sqlAllows (liveOld r at_) (etagOld r)
  | .go => pre.allows (liveOld r at_) (etagOld r)

/-- What the upsert of each path writes over the row it finds. `Copy` names no `expires_at`, so a
row it replaces keeps its own (`write.go:1330-1343`). -/
inductive Upsert where
  | publish (p : PublishArgs Text Nat) (now : Nat)
  | swap (etag : Text) (body : Nat) (expiresAt : Option Nat) (now : Nat)
  | copied (etag : Text) (body now : Nat)

def Upsert.apply : Upsert → Option Row → Option Row
  | .publish p now, old => p.write old now
  | .swap etag body expiresAt now, old => some ⟨etag, body, expiresAt, old.bind (·.originETag), now⟩
  | .copied etag body now, old => some ⟨etag, body, old.bind (·.expiresAt), old.bind (·.originETag), now⟩

/-- One committed write: the precondition with the path and the time of its check, the row before
it, and the row it left. -/
structure Commit where
  family : Family
  pre : Precondition
  checkedAt : Nat
  before : Option Row
  wrote : Row
deriving DecidableEq, Repr

inductive Stmt where
  /-- `BEGIN`; the answer is `now()` for the whole transaction. -/
  | begin
  /-- `time.Now()` in the gateway. -/
  | clock
  /-- `pg_advisory_xact_lock` of a text. -/
  | lock (text : Text)
  /-- `loadUploadRecord`, `loadUploadParts` and `planMultipart`, or the quota check of `Copy`. -/
  | prepare
  /-- The plain read of the source of a copy of the object onto itself. -/
  | selectLive (now : Nat)
  | selectForUpdate
  | upsert (u : Upsert)
  | commit (f : Family) (pre : Precondition) (checkedAt : Nat)
  | rollback

def Stmt.Ans : Stmt → Type
  | .begin | .clock => Nat
  | .selectLive _ | .selectForUpdate => Option Row
  | .upsert _ => Bool
  | .lock _ | .prepare | .commit _ _ _ | .rollback => Unit

structure World where
  now : Nat
  /-- The committed row of the key. -/
  row : Option Row
  /-- The uncommitted version of the row and the transaction that wrote it. -/
  draft : Option (Nat × Row)
  rowLock : Option Nat
  locks : Text → Option Nat
  /-- Committed writes, newest first. -/
  log : List Commit

/-- End of a transaction: its locks go, and with them what it has not committed. -/
def World.release (w : World) (t : Nat) : World :=
  { w with
    draft := if w.draft.map (·.1) = some t then none else w.draft
    rowLock := if w.rowLock = some t then none else w.rowLock
    locks := fun k => if w.locks k = some t then none else w.locks k }

def free (l : Option Nat) (t : Nat) : Bool := l.all (· == t)

def body (t : Nat) : (s : Stmt) → World → List (s.Ans × World)
  | .begin, w => [(w.now, w)]
  | .clock, w => [(w.now, w)]
  | .lock k, w =>
    if free (w.locks k) t then [((), { w with locks := fun k' => if k' = k then some t else w.locks k' })] else []
  | .prepare, w => [((), w)]
  | .selectLive now, w => [(if liveOld w.row now then w.row else none, w)]
  | .selectForUpdate, w =>
    match w.row with
    | none => [(none, w)]
    | some r => if free w.rowLock t then [(some r, { w with rowLock := some t })] else []
  | .upsert u, w =>
    if free w.rowLock t then
      match u.apply w.row with
      | some r => [(true, { w with rowLock := some t, draft := some (t, r) })]
      | none => [(false, { w with rowLock := some t })]
    else []
  | .commit f pre at_, w =>
    match w.draft with
    | some (u, r) =>
      if u = t then [((), { w.release t with row := some r, log := ⟨f, pre, at_, w.row, r⟩ :: w.log })]
      else [((), w.release t)]
    | none => [((), w.release t)]
  | .rollback, w => [((), w.release t)]

inductive End where
  | written
  | precondition
  | stale
  | failed
deriving DecidableEq, Repr

/-- The writers' system; the clock moves by itself. -/
def sys : Sys where
  Stmt := Stmt
  Ans s := Option s.Ans
  Res := End
  World := World
  Ev := Nat
  exec t s w := (body t s w).map (fun x => (some x.1, x.2)) ++ [(none, w.release t)]
  env d w := some { w with now := w.now + d }
  done _ _ w := w

theorem exec_cases {t : Nat} {s : Stmt} {w w' : World} {r : Option s.Ans} (h : (r, w') ∈ sys.exec t s w) :
    (∃ a, r = some a ∧ (a, w') ∈ body t s w) ∨ (r = none ∧ w' = w.release t) := by
  rcases List.mem_append.1 h with hm | hm
  · obtain ⟨⟨a, v⟩, hb, he⟩ := List.mem_map.1 hm
    cases he
    exact .inl ⟨a, rfl, hb⟩
  · cases List.mem_singleton.1 hm
    exact .inr ⟨rfl, rfl⟩

/-- Ask a statement; a failure ends the request. -/
def tryStmt (s : Stmt) (k : s.Ans → sys.Req) : sys.Req :=
  .ask s fun
    | none => .ret .failed
    | some a => k a

/-- `ROLLBACK`, and the request's error. -/
def abort (e : End) : sys.Req := tryStmt .rollback fun _ => .ret e

/-- `publish_value` and the commit after it (`write.go:500-523`). -/
def publishValue (lockText : Text) (p : PublishArgs Text Nat) : sys.Req :=
  tryStmt .begin fun now =>
  tryStmt (.lock lockText) fun _ =>
  let rest (old : Option Row) : sys.Req :=
    match p.check old now with
    | .precondition => abort .precondition
    | .stale => abort .stale
    | .ok =>
      tryStmt (.upsert (.publish p now)) fun (written : Bool) =>
      if written then tryStmt (.commit .sql p.cond now) fun _ => .ret .written else abort .stale
  if p.reads then tryStmt .selectForUpdate rest else rest none

/-- The check and the write that `swapObjectParts` and `copyObject` share
(`write.go:1324-1346`). -/
def replaceRow (pre : Precondition) (u : Upsert) : sys.Req :=
  tryStmt .selectForUpdate fun old =>
  tryStmt .clock fun now =>
  if pre.allows (liveOld old now) (etagOld old) then
    tryStmt (.upsert u) fun _ =>
    tryStmt (.commit .go pre now) fun _ => .ret .written
  else abort .precondition

/-- `write.go:619-687`. -/
def swapObjectParts (lockText : Text) (pre : Precondition) (etag : Text) (file : Nat) (expiresAt : Option Nat) :
    sys.Req :=
  tryStmt .begin fun now =>
  tryStmt .prepare fun _ =>
  tryStmt (.lock lockText) fun _ =>
  replaceRow pre (.swap etag file expiresAt now)

/-- The source of a copy: the object itself, or another one with its lock text, etag and file
(`none`: not there). `srcFirst` is the order of the two `schema\x00key` texts
(`write.go:1361-1373`). -/
inductive CopySource where
  | self
  | other (lockText : Text) (srcFirst : Bool) (found : Option (Text × Nat))

/-- `ReadCondition.Allows(true, etag)`: `CopyOptions.Source` (`store/object.go:474-477`). -/
structure ReadCondition where
  ifMatch : Text
  ifNoneMatch : Text

/-- `store/object.go:489-491`. -/
def ReadCondition.allows (c : ReadCondition) (etag : Text) : Bool :=
  (c.ifMatch == [] || etagMatches c.ifMatch etag) && (c.ifNoneMatch == [] || !etagMatches c.ifNoneMatch etag)

/-- `lockTwo`: both locks in the order of their texts, once when they are one
(`write.go:1467-1478`). -/
def lockTwo (lockText : Text) (src : CopySource) (k : sys.Req) : sys.Req :=
  match src with
  | .self => tryStmt (.lock lockText) fun _ => k
  | .other l true _ => tryStmt (.lock l) fun _ => tryStmt (.lock lockText) fun _ => k
  | .other l false _ => tryStmt (.lock lockText) fun _ => tryStmt (.lock l) fun _ => k

/-- `copyObject` after the locks, with what it found at the source. -/
def copyFound (now : Nat) (cond : ReadCondition) (dest : Precondition) : Option (Text × Nat) → sys.Req
  | none => abort .failed
  | some (etag, file) =>
    if cond.allows etag then
      tryStmt .prepare fun _ =>
      replaceRow dest (.copied etag file now)
    else abort .precondition

/-- `write.go:1238-1262`. -/
def copyObject (lockText : Text) (src : CopySource) (cond : ReadCondition) (dest : Precondition) : sys.Req :=
  tryStmt .begin fun now =>
  lockTwo lockText src <|
  match src with
  | .self => tryStmt (.selectLive now) fun r => copyFound now cond dest (r.map fun x => (x.etag, x.body))
  | .other _ _ found => copyFound now cond dest found

end Pgvs3.Writers
