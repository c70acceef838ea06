import Pgvs3.Cache.MSetAtomic
import Pgvs3.Ns
/-!
# Pipelines of RESP commands

Two or more plain GETs in a row become one `MGet`, plain SETs one `MSet`, and what goes wrong there
is the answer to all of them. Which commands are taken together does not depend on the tables, so a
batch falls into segments first.

The namespaces exist, and all statements of a pipeline run at one time. Other commands may do
anything with what they find in the tables.
-/

namespace Pgvs3.Pipeline

open Cache (Key Row Space Encoder)

/-! ## The tables -/

/-- What is stored is the same, but for the file ids still to be given out. -/
structure Tables (a b : Space) : Prop where
  same : Cache.Same a b
  uploadParts : a.uploadParts = b.uploadParts

structure Alike (a b : Space) : Prop extends Tables a b where
  nextFile : a.nextFile = b.nextFile

inductive Fault where
  | quota
  /-- An error of the database. -/
  | db (message : Text)
  | corrupt (message : Text)
deriving DecidableEq, Repr

def Fault.error : Fault → Text
  | .quota => "namespace or database storage budget exceeded".toList
  | .db m => "ERROR: ".toList ++ m
  | .corrupt m => "corrupt ".toList ++ m

/-- The database as the commands find it. -/
structure Db where
  e : Encoder
  now : Nat
  /-- `checkQuota`: so many bytes are too many. The source measures the relations and keeps the
  result for a second; here it is a function of the tables as the statement finds them. -/
  exceeds : Text → Space → Nat → Bool
  exceeds_congr : ∀ name a b, Tables a b → exceeds name a = exceeds name b
  /-- What the database says to a text with such bytes, if it does not take them. -/
  textFault : Key → Option Text
  /-- The text of a block that cannot be read. -/
  describe : Codec.ReadError → Text

def shapeFault : Text := "new row for relation \"objects\" violates check constraint \"object_shape\" (SQLSTATE 23514)".toList

/-- `octet_length(key) BETWEEN 1 AND 2048`. -/
def shaped (k : Key) : Bool := 1 ≤ k.length && k.length ≤ 2048

def deletedOriginPrefix : Bytes := "deleted:".toList.map fun c => .ofNat c.toNat

def deleted (r : Row) : Bool := deletedOriginPrefix.isPrefixOf (r.originETag.getD [])

namespace Db

variable (db : Db)

def readRow (r : Row) : Except Fault (Option Bytes) :=
  if r.expiresAt.all (db.now < ·) && !deleted r then
    match r.body with
    | .inline data =>
      match Codec.decompressBlock db.e.z data r.size with
      | .ok v => .ok (some v)
      | .error err => .error (.corrupt (db.describe err))
    | .file _ content => .ok (some content)
    | .parts _ _ _ content => .ok (some content)
  else .ok none

def read (st : Space) (k : Key) : Except Fault (Option Bytes) :=
  match db.textFault k with
  | some m => .error (.db m)
  | none =>
    match st.objects.lookup k with
    | none => .ok none
    | some r => db.readRow r

/-- A text that the database does not take fails the statement; else the first row that cannot be
read does (`store/cache.go:233-291`). -/
def mget (st : Space) (ks : List Key) : Except Fault (List (Option Bytes)) :=
  match ks.findSome? db.textFault with
  | some m => .error (.db m)
  | none => ks.mapM (db.read st)

def keyFault (k : Key) : Option Text := (db.textFault k).or (if shaped k then none else some shapeFault)

/-- What keeps a SET from being done. -/
def faultAt (name : Text) (st : Space) (kv : Key × Bytes) : Option Fault :=
  if db.exceeds name st kv.2.length then some .quota else (db.keyFault kv.1).map .db

/-- A failed write of a large value has used up its file id. -/
def failed (st : Space) (kv : Key × Bytes) : Fault → Space
  | .quota => st
  | _ => if kv.2.length ≤ Cache.inlineMax then st else { st with nextFile := st.nextFile + 1 }

def alone (name : Text) (st : Space) (kv : Key × Bytes) : Option Fault × Space :=
  match db.faultAt name st kv with
  | some f => (some f, failed st kv f)
  | none => (none, Cache.set db.e db.now st kv)

/-- Key by key, up to the first failure. -/
def writeAll (name : Text) : List (Key × Bytes) → Space → Option Fault × Space
  | [], st => (none, st)
  | kv :: kvs, st =>
    match db.alone name st kv with
    | (none, st') => writeAll name kvs st'
    | (some f, st') => (some f, st')

/-- What keeps the statement for all keys from being done. -/
def msetFault (name : Text) (st : Space) (kvs : List (Key × Bytes)) : Option Fault :=
  let keys := (Cache.encodeCacheBatch kvs).map Prod.fst
  if db.exceeds name st (kvs.map (·.2.length)).sum then some .quota
  else match keys.findSome? db.textFault with
    | some m => some (.db m)
    | none => if keys.all shaped then none else some (.db shapeFault)

def mset (name : Text) (kvs : List (Key × Bytes)) (st : Space) : Option Fault × Space :=
  if Cache.large kvs then db.writeAll name kvs st
  else match db.msetFault name st kvs with
    | some f => (some f, st)
    | none => (none, Cache.cacheMSet db.e db.now st (Cache.encodeCacheBatch kvs))

end Db

/-! ## Commands -/

/-- GET with one argument, SET with two, and everything else (`resp.go:55-58`). -/
inductive Cmd (C : Type) where
  | get (raw : Key)
  | set (raw : Key) (value : Bytes)
  | other (c : C)

inductive Reply where
  | bulk (value : Option Bytes)
  | ok
  | error (text : Text)
  /-- What another command writes. -/
  | raw (data : Bytes)
deriving DecidableEq, Repr

/-- The caches, all the rest and the session (`resp.go:60-64`). -/
structure State (W : Type) where
  caches : Text → Space
  rest : W
  /-- The session's cache. -/
  bucket : Text
  quit : Bool

structure State.Alike {W : Type} (s s' : State W) : Prop where
  caches : ∀ name, Pipeline.Alike (s.caches name) (s'.caches name)
  rest : s.rest = s'.rest
  bucket : s.bucket = s'.bucket
  quit : s.quit = s'.quit

/-- The commands that are left open. They read the tables as `Tables` compares them. -/
structure Others (C W : Type) where
  run : C → State W → Reply × State W
  readBucket : (bucket key : Bytes) → State W → Reply
  run_congr : ∀ c s s', s.Alike s' → (run c s).1 = (run c s').1 ∧ (run c s).2.Alike (run c s').2
  readBucket_congr : ∀ b k s s', s.Alike s' → readBucket b k s = readBucket b k s'

def schemePrefix : Bytes := "s3://".toList.map fun c => .ofNat c.toNat

/-- `strings.Cut` at the first slash. -/
def cutSlash (raw : Bytes) : Option (Bytes × Bytes) :=
  match raw.span (· != 47) with
  | (_, []) => none
  | (b, _ :: k) => some (b, k)

/-- The bucket and the key; `none`: a key of the session's cache (`resp.go:201-209`). -/
def resolveTarget (raw : Key) : Option (Bytes × Bytes) :=
  if schemePrefix.isPrefixOf raw then (cutSlash (raw.drop schemePrefix.length)).filter fun (b, k) => b != [] && k != [] else none

/-- A key that may be written (`resp.go:211-221`). -/
def writeTarget (raw : Key) : Bool := !schemePrefix.isPrefixOf raw

def errCrossNamespace : Text := "cross-namespace write denied".toList

def errorText (msg : Text) : Text :=
  if "ERR ".toList.isPrefixOf msg || "NOPROTO ".toList.isPrefixOf msg || "READONLY ".toList.isPrefixOf msg then msg
  else "ERR ".toList ++ msg

/-- `resp.go:26-33`. -/
structure Server (C W : Type) where
  db : Db
  others : Others C W
  readOnly : Bool

def maxInlineBytes : Nat := 65536

/-! ## One at a time -/

/-- `resp.go:496-510`. -/
def getReply : Except Fault (Option Bytes) → Reply
  | .ok v => .bulk v
  | .error f => .error (errorText f.error)

def setReply : Option Fault → Reply
  | none => .ok
  | some f => .error (errorText f.error)

def State.put {W : Type} (s : State W) (st : Space) : State W := { s with caches := Function.update s.caches s.bucket st }

def State.current {W : Type} (s : State W) : Space := s.caches s.bucket

namespace Server

variable {C W : Type} (srv : Server C W)

/-- `resp.go:483-494`. -/
def cmdGet (s : State W) (raw : Key) : Reply :=
  match resolveTarget raw with
  | some (b, k) => srv.others.readBucket b k s
  | none => getReply (srv.db.read s.current raw)

/-- `resp.go:547-571`. -/
def cmdSet (s : State W) (raw : Key) (v : Bytes) : Reply × State W :=
  if srv.readOnly then (.error "READONLY You can't write against a read only replica.".toList, s)
  else if writeTarget raw then
    (setReply (srv.db.alone s.bucket s.current (raw, v)).1, s.put (srv.db.alone s.bucket s.current (raw, v)).2)
  else (.error (errorText errCrossNamespace), s)

/-- `resp.go:285-318`. -/
def execCommand (s : State W) : Cmd C → Reply × State W
  | .get raw => (srv.cmdGet s raw, s)
  | .set raw v => srv.cmdSet s raw v
  | .other c => srv.others.run c s

def oneByOne : List (Cmd C) → State W → List Reply × State W
  | [], s => ([], s)
  | c :: cs, s =>
    if s.quit then ([], s)
    else
      let (r, s') := srv.execCommand s c
      let (rs, s'') := oneByOne cs s'
      (r :: rs, s'')

end Server

/-! ## Coalesced -/

inductive Segment (C : Type) where
  | gets (keys : List Key)
  | sets (kvs : List (Key × Bytes))
  | single (c : Cmd C)

section Segments

variable {C : Type}

def Segment.commands : Segment C → List (Cmd C)
  | .gets ks => ks.map .get
  | .sets kvs => kvs.map fun kv => .set kv.1 kv.2
  | .single c => [c]

/-- The GETs of the session's cache that the batch begins with (`resp.go:116-151`). -/
def getRun : List (Cmd C) → List Key
  | .get raw :: rest => if (resolveTarget raw).isNone then raw :: getRun rest else []
  | _ => []

/-- The SETs that the batch begins with and that may be taken together (`resp.go:153-195`). -/
def setRun (readOnly : Bool) : List (Cmd C) → List (Key × Bytes)
  | .set raw v :: rest =>
    if !readOnly && v.length ≤ maxInlineBytes && writeTarget raw then (raw, v) :: setRun readOnly rest else []
  | _ => []

/-- The loop of `execRESPBatch` over a batch of at most `n` commands. -/
def segmentsFrom (readOnly : Bool) : Nat → List (Cmd C) → List (Segment C)
  | 0, _ => []
  | _, [] => []
  | n + 1, c :: rest =>
    let ks := getRun (c :: rest)
    let kvs := setRun readOnly (c :: rest)
    if 2 ≤ ks.length then .gets ks :: segmentsFrom readOnly n ((c :: rest).drop ks.length)
    else if 2 ≤ kvs.length then .sets kvs :: segmentsFrom readOnly n ((c :: rest).drop kvs.length)
    else .single c :: segmentsFrom readOnly n rest

def segments (readOnly : Bool) (batch : List (Cmd C)) : List (Segment C) := segmentsFrom readOnly batch.length batch

end Segments

namespace Server

variable {C W : Type} (srv : Server C W)

/-- `conn.WriteError("ERR " + err.Error())`. -/
def coalescedError (f : Fault) : Reply := .error ("ERR ".toList ++ f.error)

def execSegment (s : State W) : Segment C → List Reply × State W
  | .gets ks =>
    match srv.db.mget s.current ks with
    | .ok vs => (vs.map .bulk, s)
    | .error f => (List.replicate ks.length (coalescedError f), s)
  | .sets kvs =>
    match srv.db.mset s.bucket kvs s.current with
    | (none, st) => (List.replicate kvs.length .ok, s.put st)
    | (some f, st) => (List.replicate kvs.length (coalescedError f), s.put st)
  | .single c =>
    let (r, s') := srv.execCommand s c
    ([r], s')

def execSegments : List (Segment C) → State W → List Reply × State W
  | [], s => ([], s)
  | seg :: segs, s =>
    if s.quit then ([], s)
    else
      let (rs, s') := srv.execSegment s seg
      let (rs', s'') := execSegments segs s'
      (rs ++ rs', s'')

/-- `resp.go:92-114`. -/
def execRESPBatch (batch : List (Cmd C)) (s : State W) : List Reply × State W := srv.execSegments (segments srv.readOnly batch) s

def maxBatch : Nat := 128

/-- The pipeline in batches of at most 128 commands, `n` of them at most. -/
def serveFrom : Nat → List (Cmd C) → State W → List Reply × State W
  | 0, _, s => ([], s)
  | n + 1, batch, s =>
    if batch = [] then ([], s)
    else if s.quit then ([], s)
    else
      let (rs, s') := srv.execRESPBatch (batch.take maxBatch) s
      let (rs', s'') := serveFrom n (batch.drop maxBatch) s'
      (rs ++ rs', s'')

/-- `resp.go:70-90`. -/
def serve (batch : List (Cmd C)) (s : State W) : List Reply × State W := srv.serveFrom batch.length batch s

end Server

/-! ## What it is for -/

def SameOutcome {W : Type} (out out' : List Reply × State W) : Prop := out.1 = out'.1 ∧ out.2.Alike out'.2

section Transparency

variable {C W : Type} (srv : Server C W)

def pipelineFrom (readOnly : Bool) : Nat → List (Cmd C) → List (Segment C)
  | 0, _ => []
  | n + 1, batch => segments readOnly (batch.take Server.maxBatch) ++ pipelineFrom readOnly n (batch.drop Server.maxBatch)

def pipeline (readOnly : Bool) (batch : List (Cmd C)) : List (Segment C) := pipelineFrom readOnly batch.length batch

def Transparent (segs : List (Segment C)) (s : State W) : Prop :=
  SameOutcome (srv.execSegments segs s) (srv.oneByOne (segs.flatMap Segment.commands) s)

/-- All GETs can be done, or all fail for one reason. -/
def GetsAgree (db : Db) (st : Space) (ks : List Key) : Prop :=
  (∀ k ∈ ks, ∃ v, db.read st k = .ok v) ∨ ∃ f, ∀ k ∈ ks, db.read st k = .error f

/-- No SET and no statement for all fails, and no key has origin metadata; or all fail for one
reason. Key by key it is the same, but for origin metadata and file ids: if all fail, only the first
may have used one. -/
def SetsAgree (db : Db) (name : Text) (st : Space) (kvs : List (Key × Bytes)) : Prop :=
  if Cache.large kvs then
    (∀ done kv later, kvs = done ++ kv :: later → db.faultAt name (Cache.setAll db.e db.now st done) kv = none) ∨
      ∃ f, (∀ kv ∈ kvs, db.faultAt name st kv = some f) ∧ (f = .quota ∨ ∀ kv ∈ kvs.tail, kv.2.length ≤ Cache.inlineMax)
  else
    (db.msetFault name st kvs = none ∧
      (∀ done kv later, kvs = done ++ kv :: later → db.faultAt name (Cache.setAll db.e db.now st done) kv = none) ∧
      ∀ kv ∈ kvs, st.originMetadata.lookup kv.1 = none) ∨
    ∃ f, db.msetFault name st kvs = some f ∧ ∀ kv ∈ kvs, db.faultAt name st kv = some f

def Segment.Agrees (s : State W) : Segment C → Prop
  | .gets ks => GetsAgree srv.db s.current ks
  | .sets kvs => SetsAgree srv.db s.bucket s.current kvs
  | .single _ => True

def Agreed : List (Segment C) → State W → Prop
  | [], _ => True
  | seg :: segs, s => s.quit = false → seg.Agrees srv s ∧ Agreed segs (srv.execSegment s seg).2

end Transparency

end Pgvs3.Pipeline
