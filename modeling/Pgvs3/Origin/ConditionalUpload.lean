import Pgvs3.Conc.Server
import Pgvs3.Origin.Keys
import Pgvs3.Origin.RangeGet
/-!
# Conditional uploads to an S3 origin

An attempt that the origin applies may be answered by nothing, or by a 5xx, and is then sent again.
The start of a multipart upload, its parts and its end without success write nothing at the key, and
stand for all their attempts.

The second attempt meets the first: the condition may fail of the version that the call itself has
written, and the upload it completes is gone.
-/

namespace Pgvs3.Origin

open Conc List

/-! ## The origin -/

/-- `origin.go:78-87`. -/
inductive Condition where
  | ifMatch (etag : Text)
  /-- `If-None-Match: *`. -/
  | ifNoneMatch
deriving DecidableEq, Repr

structure Stored where
  body : Bytes
  etag : Text
deriving DecidableEq, Repr

def Condition.holds : Condition → Option Stored → Bool
  | .ifMatch _, none => false
  | .ifMatch etag, some v => etag == ['*'] || etag == v.etag
  | .ifNoneMatch, object => object.isNone

/-- A request without a condition is always met. -/
def met (cond : Option Condition) (object : Option Stored) : Bool := cond.all fun c => c.holds object

/-- How the origin names what it is given: in one piece, in parts. -/
structure Naming where
  single : Bytes → Text
  completed : List Bytes → Text

structure Piece where
  /-- The entity tag and the part number. -/
  tag : Text × Nat
  body : Bytes
deriving DecidableEq, Repr

structure Site where
  object : Option Stored
  uploads : Text → Option (List Piece)
  /-- The uploads that have become an object. -/
  completed : List Text
  /-- The bodies that were written, the last one first. -/
  writes : List Bytes

def Site.store (w : Site) (v : Stored) : Site := { w with object := some v, writes := v.body :: w.writes }

def Site.setUpload (w : Site) (id : Text) (ps : Option (List Piece)) : Site :=
  { w with uploads := fun i => if i = id then ps else w.uploads i }

def Site.complete (w : Site) (id : Text) (v : Stored) : Site :=
  { (w.store v).setUpload id none with completed := id :: w.completed }

/-! ## Answers and errors -/

inductive ErrorClass where
  | notFound
  | precondition
  | conflict
  | invalidRange
  | unsupported
deriving DecidableEq, Repr

/-- `client.go:537-564`. -/
def classify (status : Nat) (code : Text) : Option ErrorClass :=
  if code ∈ ["NoSuchKey".toList, "NoSuchBucket".toList, "NoSuchUpload".toList, "NotFound".toList] then some .notFound
  else if code = "PreconditionFailed".toList then some .precondition
  else if code = "ConditionalRequestConflict".toList then some .conflict
  else if code = "InvalidRange".toList then some .invalidRange
  else if code ∈ ["NotImplemented".toList, "UnsupportedOperation".toList] then some .unsupported
  else if status = 404 then some .notFound
  else if status = 412 then some .precondition
  else if status = 409 then some .conflict
  else if status = 416 then some .invalidRange
  else if status = 501 then some .unsupported
  else none

structure Payload where
  /-- It could be read to its end. -/
  intact : Bool
  /-- There is nothing in it but space. -/
  blank : Bool
  /-- The name of the root element, if it decodes. -/
  root : Option Text
  code : Text
  etag : Text
deriving DecidableEq, Repr

inductive Reply where
  /-- An error of the transport. -/
  | failed
  /-- The context has ended. -/
  | cancelled
  | response (status : Nat) (body : Payload)
deriving DecidableEq, Repr

def okStatus (status : Nat) : Bool := 200 ≤ status && status < 300

/-- `client.go:275-282`. -/
def retryableStatus (status : Nat) : Bool := status ∈ [429, 500, 502, 503, 504]

/-- `client.go:284-286`. -/
def Reply.retryable : Reply → Bool
  | .failed => true
  | .cancelled => false
  | .response status _ => retryableStatus status

/-- A 200 may still carry an error. -/
def Payload.isError (p : Payload) : Bool := p.intact && !p.blank && p.root == some "Error".toList

/-- What the answer says was the matter (`client.go:518-535`). -/
def Reply.errorClass : Reply → Option ErrorClass
  | .response status body =>
    if okStatus status then (if body.isError then classify 200 body.code else none) else classify status body.code
  | _ => none

def Reply.accepts : Reply → Bool
  | .response status _ => okStatus status
  | _ => false

def Reply.completes : Reply → Bool
  | .response status body =>
    okStatus status && body.intact && (body.blank || body.root == some "CompleteMultipartUploadResult".toList)
  | _ => false

inductive UploadStmt where
  /-- One attempt of a PUT; `none` is a body that ends too early. -/
  | put (body : Option Bytes) (cond : Option Condition)
  /-- One attempt to complete an upload. -/
  | complete (id : Text) (parts : List (Text × Nat)) (cond : Option Condition)
  /-- The wait between two attempts; `true`: the context has ended. -/
  | pause
  | create
  | parts (id : Text) (bodies : List Bytes)
  | abort (id : Text)

abbrev UploadStmt.Ans : UploadStmt → Type
  | .put .. => Reply
  | .complete .. => Reply
  | .pause => Bool
  | .create => Except (Option ErrorClass) Text
  | .parts .. => Except (Option ErrorClass) (List Text)
  | .abort _ => Unit

/-- Nothing has happened at the key itself. -/
structure Site.Kept (w w' : Site) : Prop where
  object : w'.object = w.object
  writes : w'.writes = w.writes

/-- What is applied is not answered by a refusal; a refusal is true. -/
def servePut (t : Naming) (body : Option Bytes) (cond : Option Condition) (w : Site) (r : Reply) (w' : Site) : Prop :=
  (∃ b, body = some b ∧ met cond w.object = true ∧ r.errorClass = none ∧ w' = w.store ⟨b, t.single b⟩) ∨
    (w' = w ∧ r.accepts = false ∧ (r.errorClass = some .precondition → met cond w.object = false) ∧
      (r.errorClass = some .notFound → w.object = none))

/-- An upload that has been completed before may be answered as completed, as absent, or by the
condition. -/
def serveComplete (t : Naming) (id : Text) (parts : List (Text × Nat)) (cond : Option Condition) (w : Site) (r : Reply)
    (w' : Site) : Prop :=
  (∃ ps, w.uploads id = some ps ∧ ps.map (·.tag) = parts ∧ met cond w.object = true ∧ r.errorClass = none ∧
    w' = w.complete id ⟨(ps.map (·.body)).flatten, t.completed (ps.map (·.body))⟩) ∨
    (w' = w ∧ (r.completes = true → id ∈ w.completed) ∧ (r.errorClass = some .precondition → met cond w.object = false) ∧
      (r.errorClass = some .notFound → w.uploads id = none ∨ w.object = none))

def serveCreate (w : Site) (r : Except (Option ErrorClass) Text) (w' : Site) : Prop :=
  w.Kept w' ∧ ∀ id, r = .ok id → id ≠ [] ∧ w'.uploads id = some []

def stored (etags : List Text) (bodies : List Bytes) : List Piece := ((etags.zipIdx 1).zip bodies).map fun p => ⟨p.1, p.2⟩

def serveParts (id : Text) (bodies : List Bytes) (w : Site) (r : Except (Option ErrorClass) (List Text)) (w' : Site) :
    Prop :=
  w.Kept w' ∧ ∀ etags, r = .ok etags → etags.length = bodies.length ∧ (∀ e ∈ etags, e ≠ []) ∧ w'.uploads id = some (stored etags bodies)

def serveUpload (t : Naming) : (s : UploadStmt) → Site → s.Ans → Site → Prop
  | .put body cond => servePut t body cond
  | .complete id parts cond => serveComplete t id parts cond
  | .pause => fun w _ w' => w' = w
  | .create => serveCreate
  | .parts id bodies => serveParts id bodies
  | .abort id => fun w _ w' => w' = w ∨ w' = w.setUpload id none

/-! ## The client -/

abbrev UploadReq := Prog UploadStmt UploadStmt.Ans

/-- `client.go:322-331`. -/
def issue (s : UploadStmt) : UploadReq s.Ans := Prog.stmt s

/-- Up to `n` more attempts after this one (`client.go:288-320`). -/
def doAttempts (attempt : UploadReq Reply) (replayable : Bool) : Nat → UploadReq Reply
  | 0 => attempt
  | n + 1 => do
    let r ← attempt
    if replayable && r.retryable then
      if ← issue .pause then return .cancelled
      else doAttempts attempt replayable n
    else return r

/-- `s3client/object.go:50-58`. -/
structure PutOptions where
  ifMatch : Text
  ifNoneMatch : Text
  /-- The user metadata, the content type or the content encoding is refused. -/
  invalid : Bool
deriving DecidableEq, Repr

/-- `s3client/object.go:685-691`. -/
def normalizeETag (etag : Text) : Text :=
  let etag := trimSpace etag
  if etag = ['*'] then etag else Data.trim (· == '"') etag

/-- The condition that is sent; `none` is an error (`s3client/object.go:516-552`). -/
def putHeaders (o : PutOptions) : Option (Option Condition) :=
  let ifMatch := normalizeETag o.ifMatch
  let ifNone := normalizeETag o.ifNoneMatch
  if o.invalid ∨ (ifMatch ≠ [] ∧ ifNone ≠ []) ∨ (ifNone ≠ [] ∧ ifNone ≠ ['*']) then none
  else if ifMatch ≠ [] then some (some (.ifMatch ifMatch))
  else if ifNone ≠ [] then some (some .ifNoneMatch)
  else some none

structure Reader where
  data : Bytes
  /-- It is an `io.ReadSeeker`. -/
  seekable : Bool
deriving DecidableEq, Repr

/-- `origin.go:70-76`. -/
structure Upload where
  key : Text
  reader : Option Reader
  size : Int
  options : PutOptions

structure Limits where
  maxSinglePut : Nat := 5 * 2 ^ 30
  minPartSize : Nat := 8 * 2 ^ 20

def maxParts : Nat := 10000

def growPartSize (total : Nat) : Nat → Nat → Nat
  | 0, partSize => partSize
  | fuel + 1, partSize =>
    if maxParts ≤ (total - 1) / partSize then growPartSize total fuel (partSize * 2) else partSize

/-- `s3client/object.go:1062-1073`. -/
def calculatePartSize (total minPart : Nat) : Nat :=
  let partSize := if minPart = 0 then 5 * 1024 * 1024 else minPart
  if 0 < total then growPartSize total total partSize else partSize

namespace Upload

def available (u : Upload) : Bytes := (u.reader.elim [] (·.data)).take u.size.toNat

def body (u : Upload) : Option Bytes := if u.available.length = u.size.toNat then some u.available else none

/-- A body without a byte is `http.NoBody` (`client.go:267-273`). -/
def replayable (u : Upload) : Bool := u.size ≤ 0 || u.reader.all (·.seekable)

def partSize (l : Limits) (u : Upload) : Nat := calculatePartSize u.size.toNat l.minPartSize

def pieces (l : Limits) (u : Upload) : List Bytes := cut (u.partSize l) u.available

end Upload

/-- `client.go:468-475`. -/
inductive UploadError where
  /-- Found before a request was sent. -/
  | invalid
  | transport
  | cancelled
  /-- `bodyError`. -/
  | status (status : Nat) (code : Text)
  /-- A 2xx that does not read as the end of an upload. -/
  | unexpected
  /-- `reading part %d`. -/
  | reading
  /-- The start of an upload or one of its parts. -/
  | multipart (c : Option ErrorClass)
deriving DecidableEq, Repr

def UploadError.errorClass : UploadError → Option ErrorClass
  | .status n code => classify n code
  | .multipart c => c
  | _ => none

structure UploadInfo where
  size : Int
  etag : Text
deriving DecidableEq, Repr

/-- `s3client/object.go:652-664`. -/
def putResult (u : Upload) : Reply → Except UploadError UploadInfo
  | .failed => .error .transport
  | .cancelled => .error .cancelled
  | .response status body =>
    if okStatus status then .ok ⟨u.size, normalizeETag body.etag⟩ else .error (.status status body.code)

def putSingle (u : Upload) (cond : Option Condition) : UploadReq (Except UploadError UploadInfo) := do
  let r ← doAttempts (issue (.put u.body cond)) u.replayable 2
  return putResult u r

/-- An empty answer leaves the entity tag unknown. -/
def closeResult : Reply → Except UploadError Text
  | .failed => .error .transport
  | .cancelled => .error .cancelled
  | .response status body =>
    if !okStatus status then .error (.status status body.code)
    else if !body.intact then .error .unexpected
    else if body.blank then .ok []
    else if body.root = some "Error".toList then .error (.status 200 body.code)
    else if body.root = some "CompleteMultipartUploadResult".toList then .ok body.etag
    else .error .unexpected

/-- The body of a completion can always be sent again (`s3client/object.go:979-1031`). -/
def close (id : Text) (parts : List (Text × Nat)) (cond : Option Condition) : UploadReq (Except UploadError Text) := do
  let r ← doAttempts (issue (.complete id parts cond)) true 2
  return closeResult r

/-- The deferred `Abort` (`s3client/object.go:1035-1060`). -/
def abandon (id : Text) (e : UploadError) : UploadReq (Except UploadError UploadInfo) := do
  let _ ← issue (.abort id)
  return .error e

/-- The parts of a reader that ends early are sent, and the upload is given up
(`s3client/object.go:453-514`). -/
def putMultipartStream (l : Limits) (u : Upload) (cond : Option Condition) : UploadReq (Except UploadError UploadInfo) := do
  match ← issue .create with
  | .error c => return .error (.multipart c)
  | .ok id =>
    match ← issue (.parts id (u.pieces l)) with
    | .error c => abandon id (if u.body = none ∧ u.partSize l ≤ 16 * 2 ^ 20 then .reading else .multipart c)
    | .ok etags =>
      if u.body = none then abandon id .reading
      else
        match ← close id (etags.zipIdx 1) cond with
        | .error e => abandon id e
        | .ok etag => return .ok ⟨u.size, normalizeETag etag⟩

/-- `s3client/object.go:413-451`. -/
def writeReader (l : Limits) (u : Upload) : UploadReq (Except UploadError UploadInfo) :=
  if u.size < 0 ∨ (u.reader = none ∧ 0 < u.size) ∨ objectKey u.key = none then return .error .invalid
  else
    match putHeaders u.options with
    | none => return .error .invalid
    | some cond => if l.maxSinglePut < u.size then putMultipartStream l u cond else putSingle u cond

/-- `origin.go:546`. -/
inductive OriginError where
  /-- `ErrOriginConflict`. -/
  | conflict
  /-- `errOriginPrecondition`. -/
  | precondition
  | other (e : UploadError)
deriving DecidableEq, Repr

/-- `conditional` is said of `IfPresent` and `IfMatch`, not of `IfAbsent` (`origin.go:578-590`). -/
def mapOriginError (e : UploadError) (conditional : Bool) : OriginError :=
  match e.errorClass with
  | some .conflict => .conflict
  | some .precondition => .precondition
  | some .notFound => if conditional then .precondition else .other e
  | _ => .other e

/-! ## When the errors are true -/

def Upload.version (t : Naming) (l : Limits) (u : Upload) (b : Bytes) : Stored :=
  if l.maxSinglePut < u.size then ⟨b, t.completed (u.pieces l)⟩ else ⟨b, t.single b⟩

/-- The condition holds, and a second attempt can speak of the first: the condition fails of the
version that it left, or a completed upload that is gone counts as a failed condition. -/
structure Exposed (t : Naming) (l : Limits) (u : Upload) (conditional : Bool) (object : Option Stored)
    (cond : Option Condition) (b : Bytes) : Prop where
  size : 0 ≤ u.size
  key : objectKey u.key ≠ none
  headers : putHeaders u.options = some cond
  body : u.body = some b
  met : met cond object = true
  again : l.maxSinglePut < u.size ∨ u.replayable = true
  broken : Origin.met cond (some (u.version t l b)) = false ∨ (l.maxSinglePut < u.size ∧ conditional = true)

/-- A class of errors that ends as a failed condition. -/
def Reported (conditional : Bool) (c : Option ErrorClass) : Prop :=
  c = some .precondition ∨ (c = some .notFound ∧ conditional = true)

variable {t : Naming} {l : Limits} {u : Upload} {conditional : Bool} {object : Option Stored} {cond : Option Condition} {ws : List Bytes}

variable {e : UploadError} {r : Reply} {w : Site} {bodies : List Bytes} {etags : List Text} {attempt : UploadReq Reply}
  {replayable : Bool}

theorem mapOriginError_precondition : mapOriginError e conditional = .precondition ↔ Reported conditional e.errorClass := by
  unfold mapOriginError Reported
  split <;> simp_all

theorem errorClass_putResult (h : putResult u r = .error e) (hr : Reported conditional e.errorClass) : e.errorClass = r.errorClass := by
  cases r with
  | failed | cancelled =>
    cases h
    rfl
  | response status body =>
    simp only [putResult] at h
    split at h
    · cases h
    · next hs =>
      cases h
      simp [UploadError.errorClass, Reply.errorClass, hs]

theorem errorClass_closeResult (h : closeResult r = .error e) (hr : Reported conditional e.errorClass) : e.errorClass = r.errorClass := by
  cases r with
  | failed | cancelled =>
    cases h
    rfl
  | response status body =>
    simp only [closeResult] at h
    split at h
    · next hs =>
      cases h
      simp_all [UploadError.errorClass, Reply.errorClass]
    · split at h
      · cases h
        simp [UploadError.errorClass, Reported] at hr
      · split at h
        · cases h
        · split at h
          · cases h
            simp_all [UploadError.errorClass, Reply.errorClass, Payload.isError]
          · split at h <;> cases h
            simp [UploadError.errorClass, Reported] at hr

/-- The rule for `client.do`: what an attempt keeps while it is tried again, and what it ends with.
-/
theorem doAttempts_triple {I : Site → Prop} {Q : Reply → Site → Prop}
    (ha : Triple (serveUpload t) I attempt fun r w => Q r w ∧ (replayable = true → r.retryable = true → I w))
    (hc : ∀ w, I w → Q .cancelled w) (n : Nat) : Triple (serveUpload t) I (doAttempts attempt replayable n) Q := by
  induction n with
  | zero => exact ha.post fun r w h => h.1
  | succ n ih =>
    refine ha.bind fun r => ?_
    split
    · next hr =>
      rw [Bool.and_eq_true] at hr
      refine Triple.bind (Q := fun _ w => I w) (Triple.stmt ?_) fun stop => ?_
      · rintro w stop w' h rfl
        exact h.2 hr.1 hr.2
      · cases stop with
        | true => exact .ret hc
        | false => exact ih
    · exact .ret fun w h => h.1

structure Fresh (object : Option Stored) (ws : List Bytes) (w : Site) : Prop where
  object : w.object = object
  writes : w.writes = ws

theorem Fresh.kept {w' : Site} (h : Fresh object ws w) (hk : w.Kept w') : Fresh object ws w' :=
  ⟨hk.object.trans h.object, hk.writes.trans h.writes⟩

/-- An answer that is reported as a failed condition has written nothing. -/
def Truly (conditional : Bool) (ws : List Bytes) (c : Option ErrorClass) (w : Site) : Prop :=
  Reported conditional c → w.writes = ws

theorem truly_none (w : Site) : Truly conditional ws none w := by
  rintro (h | ⟨h, -⟩) <;> cases h

theorem put_triple (body : Option Bytes)
    (hsafe : ∀ b, body = some b → met cond object = true → replayable = true → met cond (some ⟨b, t.single b⟩) = true)
    (n : Nat) :
    Triple (serveUpload t) (Fresh object ws) (doAttempts (issue (.put body cond)) replayable n)
      fun r w => Truly conditional ws r.errorClass w := by
  let Written (w : Site) : Prop := ∃ b, body = some b ∧ w.object = some ⟨b, t.single b⟩ ∧ met cond w.object = true
  have hloop : Triple (serveUpload t) (fun w => Fresh object ws w ∨ Written w)
      (doAttempts (issue (.put body cond)) replayable n) fun r w => Truly conditional ws r.errorClass w := by
    refine doAttempts_triple (.stmt ?_) (fun w _ => truly_none w) n
    rintro w r w' hw (⟨b, hb, hmet, hnone, rfl⟩ | ⟨rfl, -, hpre, habsent⟩)
    · refine ⟨hnone ▸ truly_none _, fun hrep _ => .inr ⟨b, hb, rfl, ?_⟩⟩
      rcases hw with hw | ⟨b', hb', hobj, hmet'⟩
      · exact hsafe b hb (hw.object ▸ hmet) hrep
      · cases hb.symm.trans hb'
        rwa [hobj] at hmet'
    · rcases hw with hw | ⟨b, hb, hobj, hmet⟩
      · exact ⟨fun _ => hw.writes, fun _ _ => .inl hw⟩
      · refine ⟨?_, fun _ _ => .inr ⟨b, hb, hobj, hmet⟩⟩
        rintro (h | ⟨h, -⟩)
        · simp [hpre h] at hmet
        · simp [habsent h] at hobj
  exact hloop.pre fun w h => .inl h

theorem map_tag_stored (h : etags.length = bodies.length) : (stored etags bodies).map (·.tag) = etags.zipIdx 1 := by
  rw [stored, List.map_map]
  exact map_fst_zip (by simp [h])

theorem map_body_stored (h : etags.length = bodies.length) : (stored etags bodies).map (·.body) = bodies := by
  rw [stored, List.map_map]
  exact map_snd_zip (by simp [h])

/-- The attempts to complete an upload; after the first that is applied the upload is gone. -/
theorem complete_triple (id : Text) (ps : List Piece) (v : Stored) (hv : v = ⟨(ps.map (·.body)).flatten, t.completed (ps.map (·.body))⟩)
    (hsafe : met cond object = true → met cond (some v) = true ∧ conditional = false) (n : Nat) :
    Triple (serveUpload t) (fun w => Fresh object ws w ∧ w.uploads id = some ps)
      (doAttempts (issue (.complete id (ps.map (·.tag)) cond)) true n) fun r w => Truly conditional ws r.errorClass w := by
  let Written (w : Site) : Prop :=
    w.uploads id = none ∧ w.object = some v ∧ met cond (some v) = true ∧ conditional = false
  have hloop : Triple (serveUpload t) (fun w => (Fresh object ws w ∧ w.uploads id = some ps) ∨ Written w)
      (doAttempts (issue (.complete id (ps.map (·.tag)) cond)) true n) fun r w => Truly conditional ws r.errorClass w := by
    refine doAttempts_triple (.stmt ?_) (fun w _ => truly_none w) n
    rintro w r w' hw (⟨ps', hps', -, hmet, hnone, rfl⟩ | ⟨rfl, -, hpre, -⟩)
    · refine ⟨hnone ▸ truly_none _, fun _ _ => .inr ?_⟩
      rcases hw with ⟨hw, hps⟩ | ⟨hgone, -⟩
      · cases hps.symm.trans hps'
        obtain ⟨hmet', hcond⟩ := hsafe (hw.object ▸ hmet)
        exact ⟨by simp [Site.complete, Site.setUpload], hv ▸ rfl, hmet', hcond⟩
      · simp [hgone] at hps'
    · rcases hw with ⟨hw, hps⟩ | ⟨hgone, hobj, hmet, hcond⟩
      · exact ⟨fun _ => hw.writes, fun _ _ => .inl ⟨hw, hps⟩⟩
      · refine ⟨?_, fun _ _ => .inr ⟨hgone, hobj, hmet, hcond⟩⟩
        rintro (h | ⟨-, h⟩)
        · have hfail := hpre h
          rw [hobj, hmet] at hfail
          cases hfail
        · simp [hcond] at h
  exact hloop.pre fun w h => .inl h

/-! ## The calls -/

def Honestly (conditional : Bool) (ws : List Bytes) {α : Type} (res : Except UploadError α) (w : Site) : Prop :=
  ∀ e, res = .error e → Truly conditional ws e.errorClass w

theorem honestly_error {α : Type} (h : Truly conditional ws e.errorClass w) : Honestly (α := α) conditional ws (.error e) w := by
  rintro e' ⟨⟩
  exact h

theorem abandon_triple (id : Text) (e : UploadError) :
    Triple (serveUpload t) (Truly conditional ws e.errorClass) (abandon id e) (Honestly conditional ws) := by
  refine Triple.bind (Q := fun _ => Truly conditional ws e.errorClass) (.stmt ?_) fun _ => .ret fun w h => honestly_error h
  rintro w r w' h (rfl | rfl)
  · exact h
  · exact h

theorem growPartSize_pos (total fuel : Nat) {p : Nat} (hp : 0 < p) : 0 < growPartSize total fuel p := by
  induction fuel generalizing p with
  | zero => exact hp
  | succ fuel ih =>
    rw [growPartSize]
    split
    · exact ih (by omega)
    · exact hp

theorem calculatePartSize_pos (total minPart : Nat) : 0 < calculatePartSize total minPart := by
  have hstart : 0 < (if minPart = 0 then 5 * 1024 * 1024 else minPart) := by
    split <;> omega
  dsimp only [calculatePartSize]
  by_cases ht : 0 < total
  · rw [if_pos ht]
    exact growPartSize_pos total total hstart
  · rw [if_neg ht]
    exact hstart

theorem Upload.flatten_pieces (l : Limits) (u : Upload) : (u.pieces l).flatten = u.available :=
  flatten_cut (calculatePartSize_pos _ _) _

theorem Upload.eq_available {b : Bytes} (h : u.body = some b) : b = u.available := by
  unfold Upload.body at h
  split at h <;> cases h
  rfl

theorem putSingle_triple (hsafe : ∀ b, u.body = some b → met cond object = true → u.replayable = true →
    met cond (some ⟨b, t.single b⟩) = true) :
    Triple (serveUpload t) (Fresh object ws) (putSingle u cond) (Honestly conditional ws) := by
  have hdo : Triple (serveUpload t) (Fresh object ws) (doAttempts (issue (.put u.body cond)) u.replayable 2)
      fun r w => Truly conditional ws r.errorClass w := put_triple u.body hsafe 2
  refine hdo.bind fun r => .ret fun w hr e he hrep => ?_
  exact hr (errorClass_putResult he hrep ▸ hrep)

theorem close_triple (id : Text) (etags : List Text) (bodies : List Bytes) (hlen : etags.length = bodies.length)
    (hsafe : met cond object = true → met cond (some ⟨bodies.flatten, t.completed bodies⟩) = true ∧ conditional = false) :
    Triple (serveUpload t) (fun w => Fresh object ws w ∧ w.uploads id = some (stored etags bodies))
      (close id (etags.zipIdx 1) cond) (Honestly conditional ws) := by
  have hdo : Triple (serveUpload t) (fun w => Fresh object ws w ∧ w.uploads id = some (stored etags bodies))
      (doAttempts (issue (.complete id (etags.zipIdx 1) cond)) true 2) fun r w => Truly conditional ws r.errorClass w := by
    rw [← map_tag_stored hlen]
    exact complete_triple id (stored etags bodies) _ (by rw [map_body_stored hlen]) hsafe 2
  refine hdo.bind fun r => .ret fun w hr e he hrep => ?_
  exact hr (errorClass_closeResult he hrep ▸ hrep)

theorem putMultipartStream_triple (hsafe : ∀ b, u.body = some b → met cond object = true →
    met cond (some ⟨b, t.completed (u.pieces l)⟩) = true ∧ conditional = false) :
    Triple (serveUpload t) (Fresh object ws) (putMultipartStream l u cond) (Honestly conditional ws) := by
  -- Before the completion nothing is written, whatever the error.
  have hfresh : ∀ {e : UploadError} (w : Site), Fresh object ws w → Truly conditional ws e.errorClass w :=
    fun w hw _ => hw.writes
  refine Triple.bind (Q := fun _ => Fresh object ws) (.stmt fun w r w' hw hs => hw.kept hs.1) fun r => ?_
  cases r with
  | error c => exact .ret fun w hw => honestly_error (hfresh w hw)
  | ok id =>
    refine Triple.bind (Q := fun r w => Fresh object ws w ∧ ∀ etags, r = .ok etags →
      etags.length = (u.pieces l).length ∧ w.uploads id = some (stored etags (u.pieces l))) (.stmt ?_) fun r => ?_
    · intro w r w' hw hs
      exact ⟨hw.kept hs.1, fun etags he => ⟨(hs.2 etags he).1, (hs.2 etags he).2.2⟩⟩
    · cases r with
      | error c => exact (abandon_triple id _).pre fun w hw => hfresh w hw.1
      | ok etags =>
        dsimp only
        split
        · exact (abandon_triple id _).pre fun w hw => hfresh w hw.1
        · next hbody =>
          obtain ⟨b, hb⟩ := Option.ne_none_iff_exists'.1 hbody
          have hflat : (u.pieces l).flatten = b := (u.flatten_pieces l).trans (Upload.eq_available hb).symm
          intro w res w' hw hrun
          obtain ⟨hlen, hup⟩ := hw.2 etags rfl
          have hclose : Triple (serveUpload t) (fun w => Fresh object ws w ∧ w.uploads id = some (stored etags (u.pieces l)))
              (close id (etags.zipIdx 1) cond) (Honestly conditional ws) :=
            close_triple id etags (u.pieces l) hlen (by rw [hflat]; exact hsafe b hb)
          refine (hclose.bind fun r => ?_) w res w' ⟨hw.1, hup⟩ hrun
          cases r with
          | error e => exact (abandon_triple id e).pre fun w hw => hw e rfl
          | ok etag => exact .ret fun w _ => nofun

theorem writeReader_triple (hsafe : ∀ cond b, ¬ Exposed t l u conditional object cond b) :
    Triple (serveUpload t) (Fresh object ws) (writeReader l u) (Honestly conditional ws) := by
  have hinvalid : Triple (serveUpload t) (Fresh object ws) (Prog.ret (.error .invalid) : UploadReq (Except _ UploadInfo))
      (Honestly conditional ws) := .ret fun w hw => honestly_error fun _ => hw.writes
  unfold writeReader
  split
  · exact hinvalid
  · next hvalid =>
    simp only [not_or, Int.not_lt] at hvalid
    obtain ⟨hsize, -, hkey⟩ := hvalid
    split
    · exact hinvalid
    · next cond hheaders =>
      split
      · next hmulti =>
        refine putMultipartStream_triple fun b hb hmet => ?_
        by_contra hbroken
        refine hsafe cond b ⟨hsize, hkey, hheaders, hb, hmet, .inl hmulti, ?_⟩
        simp only [Upload.version, if_pos hmulti]
        rw [not_and_or, Bool.not_eq_true, Bool.not_eq_false] at hbroken
        exact hbroken.imp_right fun hc => ⟨hmulti, hc⟩
      · next hsingle =>
        refine putSingle_triple fun b hb hmet hrep => ?_
        by_contra hbroken
        refine hsafe cond b ⟨hsize, hkey, hheaders, hb, hmet, .inr hrep, .inl ?_⟩
        simpa only [Upload.version, if_neg hsingle, Bool.not_eq_true] using hbroken

/-! ## The run that is not true -/

theorem runs_doAttempts {w₁ w₂ : Site} (h₁ : Runs (serveUpload t) attempt w .failed w₁) (h₂ : Runs (serveUpload t) attempt w₁ r w₂)
    (hr : r.retryable = false) : Runs (serveUpload t) (doAttempts attempt true 2) w r w₂ := by
  have hpause : serveUpload t .pause w₁ false w₁ := rfl
  refine .bind h₁ ?_
  rw [if_pos (by decide)]
  refine .bind (.stmt hpause) (.bind h₂ ?_)
  rw [if_neg (by simp [hr])]
  exact .ret r w₂

def refusal (status : Nat) : Reply := .response status ⟨true, true, none, [], []⟩

def Site.start (object : Option Stored) : Site := ⟨object, fun _ => none, [], []⟩

variable {b : Bytes}

theorem putSingle_untrue (hb : u.body = some b) (hmet : met cond object = true) (hrep : u.replayable = true)
    (hbroken : met cond (some ⟨b, t.single b⟩) = false) :
    ∃ w', Runs (serveUpload t) (putSingle u cond) (.start object) (.error (.status 412 [])) w' ∧ w'.writes = [b] := by
  let w₁ := (Site.start object).store ⟨b, t.single b⟩
  have hfirst : serveUpload t (.put u.body cond) (.start object) .failed w₁ := .inl ⟨b, hb, hmet, rfl, rfl⟩
  have hsecond : serveUpload t (.put u.body cond) w₁ (refusal 412) w₁ :=
    .inr ⟨rfl, rfl, fun _ => hbroken, fun h => absurd h (by decide)⟩
  refine ⟨w₁, ?_, rfl⟩
  unfold putSingle
  rw [hrep]
  exact .bind (runs_doAttempts (.stmt hfirst) (.stmt hsecond) (by decide)) (.ret _ _)

theorem putMultipartStream_untrue (hb : u.body = some b) (hmet : met cond object = true)
    (hbroken : met cond (some ⟨b, t.completed (u.pieces l)⟩) = false ∨ conditional = true) :
    ∃ e w', Runs (serveUpload t) (putMultipartStream l u cond) (.start object) (.error e) w' ∧
      Reported conditional e.errorClass ∧ w'.writes = [b] := by
  let id : Text := ['1']
  let etags : List Text := (u.pieces l).map fun _ => ['e']
  have hlen : etags.length = (u.pieces l).length := length_map _
  have hflat : (u.pieces l).flatten = b := (u.flatten_pieces l).trans (Upload.eq_available hb).symm
  let ps := stored etags (u.pieces l)
  let w₁ := (Site.start object).setUpload id (some [])
  let w₂ := w₁.setUpload id (some ps)
  let w₃ := w₂.complete id ⟨b, t.completed (u.pieces l)⟩
  have hcreate : serveUpload t .create (.start object) (.ok id) w₁ :=
    ⟨⟨rfl, rfl⟩, fun id' h => by cases h; exact ⟨by decide, by simp [w₁, Site.setUpload]⟩⟩
  have hparts : serveUpload t (.parts id (u.pieces l)) w₁ (.ok etags) w₂ := by
    refine ⟨⟨rfl, rfl⟩, fun etags' h => ?_⟩
    cases h
    exact ⟨hlen, by simp [etags], by simp [w₂, ps, Site.setUpload]⟩
  have hfirst : serveUpload t (.complete id (etags.zipIdx 1) cond) w₂ .failed w₃ := by
    refine .inl ⟨ps, by simp [w₂, Site.setUpload], map_tag_stored hlen, hmet, rfl, ?_⟩
    rw [map_body_stored hlen, hflat]
  -- The second attempt is told that the condition fails, or that there is no such upload.
  obtain ⟨status, hreported, hsecond⟩ : ∃ status, Reported conditional (classify status []) ∧
      serveUpload t (.complete id (etags.zipIdx 1) cond) w₃ (refusal status) w₃ ∧ okStatus status = false ∧
        retryableStatus status = false := by
    rcases hbroken with hbroken | hcond
    · refine ⟨412, .inl (by decide), .inr ⟨rfl, ?_, fun _ => hbroken, fun h => absurd h (by decide)⟩, rfl, rfl⟩
      exact fun _ => mem_cons_self
    · refine ⟨404, .inr ⟨by decide, hcond⟩, .inr ⟨rfl, ?_, fun h => absurd h (by decide), fun _ => .inl ?_⟩, rfl, rfl⟩
      · exact fun _ => mem_cons_self
      · simp [w₃, Site.complete, Site.setUpload]
  obtain ⟨hsecond, hok, hretry⟩ := hsecond
  have hclose : Runs (serveUpload t) (close id (etags.zipIdx 1) cond) w₂ (.error (.status status [])) w₃ := by
    have hresult : closeResult (refusal status) = .error (.status status []) := by
      simp [closeResult, refusal, hok]
    rw [← hresult]
    exact .bind (runs_doAttempts (.stmt hfirst) (.stmt hsecond) hretry) (.ret _ _)
  refine ⟨.status status [], w₃, ?_, hreported, rfl⟩
  refine .bind (.stmt hcreate) (.bind (.stmt hparts) ?_)
  dsimp only
  rw [if_neg (by simp [hb])]
  have habort : serveUpload t (.abort id) w₃ () w₃ := .inl rfl
  exact .bind hclose (.bind (.stmt habort) (.ret _ _))

/-- An exposed upload has a run that reports a failed condition and has written its body. -/
theorem Exposed.untrue (h : Exposed t l u conditional object cond b) :
    ∃ e w', Runs (serveUpload t) (writeReader l u) (.start object) (.error e) w' ∧
      mapOriginError e conditional = .precondition ∧ w'.writes = [b] := by
  have hreader : ¬ (u.size < 0 ∨ (u.reader = none ∧ 0 < u.size) ∨ objectKey u.key = none) := by
    rintro (hneg | ⟨hnone, hpos⟩ | hkey)
    · have := h.size
      omega
    · have hbody := h.body
      simp only [Upload.body, Upload.available, hnone, Option.elim_none, take_nil, length_nil] at hbody
      rw [if_neg (by omega)] at hbody
      cases hbody
    · exact h.key hkey
  unfold writeReader
  rw [if_neg hreader, h.headers]
  dsimp only
  have hbroken := h.broken
  by_cases hmulti : (l.maxSinglePut : Int) < u.size
  · simp only [Upload.version, hmulti, if_true, true_and] at hbroken
    obtain ⟨e, w', hrun, hrep, hw⟩ := putMultipartStream_untrue h.body h.met hbroken
    exact ⟨e, w', by rwa [if_pos hmulti], mapOriginError_precondition.2 hrep, hw⟩
  · simp only [Upload.version, hmulti, if_false, false_and, or_false] at hbroken
    obtain ⟨w', hrun, hw⟩ := putSingle_untrue h.body h.met (h.again.resolve_left hmulti) hbroken
    exact ⟨_, w', by rwa [if_neg hmulti], mapOriginError_precondition.2 (.inl (by decide)), hw⟩

/-! ## The results -/

/-- **Conditional uploads.** Every run that reports a failed condition has written nothing, exactly
when the upload is not exposed. -/
theorem writeReader_truthful_iff (t : Naming) (l : Limits) (u : Upload) (conditional : Bool) (object : Option Stored) :
    (∀ w e w', w.object = object → Runs (serveUpload t) (writeReader l u) w (.error e) w' →
      mapOriginError e conditional = .precondition → w'.writes = w.writes) ↔
      ∀ cond b, ¬ Exposed t l u conditional object cond b := by
  constructor
  · intro h cond b hexp
    obtain ⟨e, w', hrun, hmap, hw⟩ := hexp.untrue
    have hnil := h _ e w' rfl hrun hmap
    rw [hw] at hnil
    cases hnil
  · intro hsafe w e w' hobj hrun hmap
    exact writeReader_triple hsafe w _ w' ⟨hobj, rfl⟩ hrun e rfl (mapOriginError_precondition.1 hmap)

/-- `If-None-Match: *` without an object: the first answer is lost, and the second attempt meets the
object that the first has created. -/
theorem writeReader_create_refused : ¬ ∀ (t : Naming) (l : Limits) (u : Upload) (c : Condition) (conditional : Bool)
    (w : Site) (e : UploadError) (w' : Site), putHeaders u.options = some (some c) →
      Runs (serveUpload t) (writeReader l u) w (.error e) w' → mapOriginError e conditional = .precondition → w'.writes = w.writes := by
  intro h
  let t : Naming := ⟨fun _ => ['e'], fun _ => ['e']⟩
  let u : Upload := ⟨['k'], some ⟨[7], true⟩, 1, ⟨[], ['*'], false⟩⟩
  have hexp : Exposed t {} u false none (some .ifNoneMatch) [7] :=
    ⟨by decide, by decide, by decide, by decide, rfl, .inr rfl, .inl (by decide)⟩
  obtain ⟨e, w', hrun, hmap, hw⟩ := hexp.untrue
  have hnil := h t {} u .ifNoneMatch false _ e w' (by decide) hrun hmap
  rw [hw] at hnil
  cases hnil

end Pgvs3.Origin
