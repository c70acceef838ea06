import Pgvs3.Codec.RoundTrip
import Pgvs3.Ingest.ChunkedTurns
import Pgvs3.Ingest.Integrity
/-!
# A PUT to a native bucket

A plain body with a `Content-Length` has that many bytes or ends with an error: `net/http` sees to
it (`sized`). What the store may refuse for other reasons is one bit, `stores`.
-/

namespace Pgvs3.Ingest

open Codec (Zstd ChunkRow)
open List

structure PutRequest where
  header : Header
  contentLength : Option Nat
  /-- The body as it comes. -/
  src : Data.Source UInt8
  /-- How a plain body ends: `io.EOF` or another error. -/
  ending : BodyError
  /-- The trailers of a plain body. -/
  trailer : List (Bytes × Bytes)
  sized : ∀ n, contentLength = some n → ending = .eof → src.rest.length = n

/-! ## Bodies -/

inductive Body where
  | plain (src : Data.Source UInt8) (ending : BodyError)
  | chunked (c : ChunkedBody)

def Body.read (m : Nat) : Body → Bytes × Option BodyError × Body
  | .plain src ending =>
    if m = 0 then ([], none, .plain src ending)
    else
      let (out, eof, src) := src.read m
      (out, if eof then some ending else none, .plain src ending)
  | .chunked c =>
    let (out, err, c) := c.read m
    (out, err, .chunked c)

def Body.trailers (req : PutRequest) : Body → List (Bytes × Bytes)
  | .plain _ _ => req.trailer
  | .chunked c => c.trailer

/-- `request.go:625-628`. -/
structure UploadReader (hash : Digest → Hash) where
  body : Body
  h : List Digest
  state : (d : Digest) → (hash d).State

variable {hash : Digest → Hash}

/-- `request.go:630-638`. -/
def UploadReader.read (m : Nat) (r : UploadReader hash) :
    Bytes × Option BodyError × UploadReader hash :=
  let (out, err, body) := r.body.read m
  (out, err,
    { r with body, state := fun d => if d ∈ r.h ∧ out ≠ [] then (hash d).write (r.state d) out else r.state d })

/-- `acc` has been read, `n` bytes are missing. -/
def readFull : Nat → Nat → Bytes → UploadReader hash →
    Option (Except BodyError Bytes × UploadReader hash)
  | _, 0, acc, r => some (.ok acc, r)
  | 0, _ + 1, _, _ => none
  | fuel + 1, n + 1, acc, r =>
    match r.read (n + 1) with
    | (out, err, r') =>
      if n + 1 ≤ out.length then some (.ok (acc ++ out), r')
      else
        match err with
        | none => readFull fuel (n + 1 - out.length) (acc ++ out) r'
        | some e => some (.error (if acc ++ out ≠ [] ∧ e = .eof then .incomplete else e), r')

def discardSize : Nat := 8 * 1024
def ioChunk : Nat := 256 * 1024

def copyBuffer (m : Nat) : Nat → UploadReader hash →
    Option (Except BodyError (List Bytes) × UploadReader hash)
  | 0, _ => none
  | fuel + 1, r =>
    match r.read m with
    | (out, some e, r') =>
      some (if e = .eof then .ok (if out = [] then [] else [out]) else .error e, r')
    | (out, none, r') =>
      (copyBuffer m fuel r').map fun p =>
        (p.1.map fun outs => if out = [] then outs else out :: outs, p.2)

/-- The rest of the body is read too, to get at its error and its trailers
(`request.go:522-538`). -/
def readInlineBody (fuel n : Nat) (r : UploadReader hash) :
    Option (Except BodyError Bytes × UploadReader hash) :=
  match readFull fuel n [] r with
  | none => none
  | some (.error e, r') => some (.error e, r')
  | some (.ok data, r') =>
    (copyBuffer discardSize fuel r').map fun p => (p.1.map fun _ => data, p.2)

/-! ## The request -/

def streamingPayloads : List Bytes :=
  [ascii "STREAMING-UNSIGNED-PAYLOAD-TRAILER", ascii "STREAMING-AWS4-HMAC-SHA256-PAYLOAD",
    ascii "STREAMING-AWS4-HMAC-SHA256-PAYLOAD-TRAILER",
    ascii "STREAMING-AWS4-ECDSA-P256-SHA256-PAYLOAD",
    ascii "STREAMING-AWS4-ECDSA-P256-SHA256-PAYLOAD-TRAILER"]

def PutRequest.streaming (req : PutRequest) : Bool :=
  (ascii "STREAMING-").isPrefixOf (req.header.get (ascii "x-amz-content-sha256"))

/-- A number that `strconv.ParseInt` takes, and not below zero (`request.go:733-739`). -/
def decodedLength (h : Header) : Option Nat :=
  (Data.parseInt ((h.get (ascii "x-amz-decoded-content-length")).map fun b => .ofNat b.toNat)).bind
    fun n =>
    if 0 ≤ n then some n.toNat else none

/-- `request.go:741-772`. -/
def prepareBody (req : PutRequest) : Except UploadError Body :=
  if !req.streaming then .ok (.plain req.src req.ending)
  else if req.header.get (ascii "x-amz-content-sha256") ∉ streamingPayloads
    then .error .streamingPayload
  else if req.header.get (ascii "x-amz-decoded-content-length") = []
    then .ok (.chunked (.start none req.src))
  else
    match decodedLength req.header with
    | none => .error .decodedLength
    | some n => .ok (.chunked (.start (some n) req.src))

/-- `request.go:435-441`. -/
structure UploadBody (hash : Digest → Hash) where
  reader : UploadReader hash
  size : Option Nat
  expectedSize : Option Nat
  integrity : Integrity

/-- `request.go:443-464`. -/
def prepareUploadBody (hash : Digest → Hash) (req : PutRequest) (body : Body) :
    Except UploadError (UploadBody hash) := do
  let i ← newIntegrity req.header
  let reader : UploadReader hash := ⟨body, i.h, fun d => (hash d).init⟩
  match body with
  | .chunked c =>
    match c.decodedLen with
    | none => .error .decodedLength
    | some n => .ok ⟨reader, some n, some n, i⟩
  | .plain _ _ =>
    .ok ⟨reader, req.contentLength, (decodedLength req.header).or req.contentLength, i⟩

inductive StoredData where
  | inline (block : Bytes)
  | chunks (rows : List ChunkRow)
deriving DecidableEq, Repr

/-- The columns of the row in `objects` that count (`write.go:131-138`). -/
structure StoredObject where
  data : StoredData
  size : Nat
  checksum : Option (Digest × Bytes)
deriving DecidableEq, Repr

structure Acked where
  object : StoredObject
  trailers : List (Bytes × Bytes)
deriving DecidableEq, Repr

/-- What goes into the columns: a checksum with an empty value does not. -/
def recorded (expected : Option (Digest × Bytes)) (checks : List (Digest × Bytes)) :
    Option (Digest × Bytes) :=
  (expected.or (firstObjectChecksum checks)).filter fun c => c.2 ≠ []

/-- What is fixed for a run: the codec, the order of the maps, the file of the object, and whether
the store takes it. -/
structure Run where
  z : Zstd
  first : MapOrder
  second : MapOrder
  fileID : Int64
  stores : Bool

/-- `write.go:31-89`. -/
def putInline (run : Run) (checksum : Option (Digest × Bytes)) (data : Bytes) :
    Except UploadError StoredObject :=
  if run.stores then .ok ⟨.inline (Codec.compressBlock run.z data), data.length, checksum⟩
    else .error .store

/-- `verifyUpload` and the publication. A length of zero is not checked (`write.go:565-591`). -/
def finish (run : Run) (want : Nat) (checksum : Option (Digest × Bytes)) (pushes : List Bytes) :
    Except UploadError StoredObject :=
  match (Codec.frameFile run.z run.fileID pushes).bind Codec.copyRows with
  | none => .error .store
  | some rows =>
    let size := pushes.flatten.length
    if 0 < want ∧ size ≠ want then .error (.size size want)
    else if run.stores then .ok ⟨.chunks rows, size, checksum⟩
    else .error .store

def UploadReader.sums (r : UploadReader hash) (d : Digest) : Bytes := (hash d).sum (r.state d)

/-- `localBackend.Put` (`s3/object.go:200-246`). -/
def putLocal (run : Run) (fuel : Nat) (req : PutRequest) (b : UploadBody hash) :
    Option (Except UploadError Acked) :=
  let expected := b.integrity.expectedChecksum run.first
  let validate (r : UploadReader hash) := b.integrity.verify run.second (r.body.trailers req) r.sums
  if b.size.any (· ≤ Codec.maxInlineBytes) then
    (readInlineBody fuel (b.size.getD 0) b.reader).map fun (res, r) => do
      let data ← res.mapError .body
      let checks ← validate r
      let obj ← putInline run (recorded expected checks) data
      return ⟨obj, r.body.trailers req⟩
  else
    (copyBuffer ioChunk fuel b.reader).map fun (res, r) => do
      let pushes ← res.mapError .body
      let checks ← validate r
      let obj ← finish run (b.size.getD (b.expectedSize.getD 0)) (recorded expected checks) pushes
      return ⟨obj, r.body.trailers req⟩

/-- `none` when the fuel was not enough to read the body (`s3/object.go:472-493`). -/
def put (hash : Digest → Hash) (run : Run) (fuel : Nat) (req : PutRequest) :
    Option (Except UploadError Acked) :=
  match (prepareBody req).bind (prepareUploadBody hash req) with
  | .error e => some (.error e)
  | .ok b => putLocal run fuel req b

def StoredObject.content (z : Zstd) (obj : StoredObject) : Except Codec.ReadError Bytes :=
  match obj.data with
  | .inline block => Codec.decompressBlock z block obj.size
  | .chunks rows =>
    (rows.mapM fun r => Codec.decodeRow z obj.size r.no.toInt.toNat r.data).map List.flatten

variable {err : Option BodyError} {fuel m : Nat} {out : Bytes} {b b' : Body}

/-! ## A chunked body gives no more than was declared -/

section Counting

variable {c c' : ChunkedBody} {m : Nat}

structure Bounded (c : ChunkedBody) : Prop where
  ok : c.r.Ok
  fits : ∀ n, c.decodedLen = some n → c.total + c.remaining ≤ n

/-- `total` counts what was given. -/
inductive Counts (m : Nat) (c : ChunkedBody) : Turn → Prop
  | again {c' : ChunkedBody} (bounded : Bounded c') (total : c'.total = c.total) (len : c'.decodedLen = c.decodedLen) :
      Counts m c (.again c')
  | ret {out : Bytes} {err : Option BodyError} {c' : ChunkedBody} (bounded : Bounded c')
      (total : c'.total = c.total + out.length) (len : c'.decodedLen = c.decodedLen)
        (short : out.length ≤ m) :
      Counts m c (.ret out err c')

theorem counts_fail {r : Data.Buffered UInt8} {trailer : List (Bytes × Bytes)} {done : Bool}
    (hb : Bounded c) (hr : r.Ok) (e : BodyError) :
    Counts m c (ChunkedBody.fail { c with r, trailer, done } e) :=
  .ret ⟨hr, hb.fits⟩ rfl rfl (Nat.zero_le m)

theorem payload_counts (hm : 0 < m) (hb : Bounded c) (hrem : 0 < c.remaining) :
    Counts m c (turnPayload m c) := by
  unfold turnPayload
  obtain ⟨out, eof, r, hread⟩ : ∃ out eof r,
    c.r.read bufioSize (min m c.remaining) = (out, eof, r) := ⟨_, _, _, rfl⟩
  have hspec := Data.Buffered.read_spec bufioSize_pos (by omega) hb.ok hread
  have hlen := hspec.length
  rw [hread]
  cases out with
  | nil =>
    obtain ⟨-, rfl⟩ := hspec.none rfl
    exact counts_fail hb hspec.ok .eof
  | cons x xs =>
    refine .ret ⟨hspec.ok, fun n hn => ?_⟩ rfl rfl (hlen.trans (Nat.min_le_left _ _))
    have := hb.fits n hn
    show c.total + (x :: xs).length + (c.remaining - (x :: xs).length) ≤ n
    omega

theorem crlf_counts (hb : Bounded c) : Counts m c (turnCRLF c) := by
  unfold turnCRLF
  obtain ⟨o, r, hread⟩ : ∃ o r, c.r.readFull bufioSize 2 2 = (o, r) := ⟨_, _, rfl⟩
  obtain ⟨hok, -⟩ := Data.Buffered.readFull_spec bufioSize_pos (Nat.le_refl 2) hb.ok hread
  rw [hread]
  cases o with
  | none => exact counts_fail hb hok .eof
  | some crlf =>
    dsimp only
    split
    · exact .again ⟨hok, hb.fits⟩ rfl rfl
    · exact counts_fail hb hok .delimiter

theorem header_counts (hb : Bounded c) : Counts m c (turnHeader c) := by
  unfold turnHeader
  obtain ⟨o, r, hread⟩ : ∃ o r, readChunkLine maxChunkHeader [] c.r = (o, r) := ⟨_, _, rfl⟩
  obtain ⟨hok, -⟩ := readChunkLine_spec maxChunkHeader hb.ok hread
  rw [hread]
  cases o with
  | error e => exact counts_fail hb hok e
  | ok line =>
    dsimp only
    split
    · exact counts_fail hb hok _
    · obtain ⟨o, trailer, r₁, htr⟩ :
          ∃ o trailer r₁, readTrailers (maxTrailerBytes + 1) maxTrailerBytes c.trailer r =
            (o, trailer, r₁) := ⟨_, _, _, rfl⟩
      obtain ⟨hok₁, -⟩ := readTrailers_spec hok htr
      rw [htr]
      cases o with
      | error e => exact counts_fail hb hok₁ e
      | ok u => exact .again ⟨hok₁, hb.fits⟩ rfl rfl
    · next k _ =>
      split
      · exact counts_fail hb hok .exceeds
      · next hfit =>
        refine .again ⟨hok, fun n hn => ?_⟩ rfl rfl
        by_contra hlt
        exact hfit ((Option.any_eq_true ..).2 ⟨n, hn, by simpa using hlt⟩)

theorem turn_counts (hm : 0 < m) (hb : Bounded c) : Counts m c (turn m c) := by
  unfold turn
  split
  · exact .ret hb rfl rfl (Nat.zero_le m)
  · split
    · next hrem => exact payload_counts hm hb hrem
    · split
      · exact crlf_counts hb
      · split
        · unfold turnDone
          split
          · exact counts_fail hb hb.ok .mismatch
          · exact .ret hb rfl rfl (Nat.zero_le m)
        · exact header_counts hb

theorem turns_counts (hm : 0 < m) (hb : Bounded c) (h : turns m fuel c = (out, err, c')) :
    Counts m c (.ret out err c') := by
  induction fuel generalizing c with
  | zero =>
    cases h
    exact .ret hb rfl rfl (Nat.zero_le m)
  | succ fuel ih =>
    rw [turns] at h
    have hturn := turn_counts hm hb
    cases ht : turn m c with
    | ret out' err' d =>
      rw [ht] at h hturn
      cases h
      exact hturn
    | again d =>
      rw [ht] at h hturn
      cases hturn with
      | again hb' htotal hlen =>
        cases ih hb' h with
        | ret hb'' htotal' hlen' hs =>
          exact .ret hb'' (by rw [htotal', htotal]) (hlen'.trans hlen) hs

end Counting

/-! ## What was read so far -/

/-- `bs` was read between the two. -/
def Body.Gave : Body → Bytes → Body → Prop
  | .plain src ending, bs, .plain src' ending' => src.rest = bs ++ src'.rest ∧ ending' = ending
  | .chunked c, bs, .chunked c' =>
    Bounded c' ∧ c'.total = c.total + bs.length ∧ c'.decodedLen = c.decodedLen
  | _, _, _ => False

def Body.Fits : Body → Prop
  | .plain _ _ => True
  | .chunked c => Bounded c

theorem Body.gave_nil (h : b.Fits) : b.Gave [] b := by
  cases b with
  | plain src ending => exact ⟨rfl, rfl⟩
  | chunked c => exact ⟨h, rfl, rfl⟩

theorem Body.Gave.trans {b b' b'' : Body} {bs bs' : Bytes} (h : b.Gave bs b')
    (h' : b'.Gave bs' b'') : b.Gave (bs ++ bs') b'' := by
  cases b with
  | plain src ending =>
    cases b' with
    | chunked c' => exact h.elim
    | plain src' ending' =>
      cases b'' with
      | chunked c'' => exact h'.elim
      | plain src'' ending'' => exact ⟨by rw [h.1, h'.1, append_assoc], h'.2.trans h.2⟩
  | chunked c =>
    cases b' with
    | plain src' ending' => exact h.elim
    | chunked c' =>
      cases b'' with
      | plain src'' ending'' => exact h'.elim
      | chunked c'' =>
        obtain ⟨-, htotal, hlen⟩ := h
        obtain ⟨hb, htotal', hlen'⟩ := h'
        exact ⟨hb, by rw [htotal', htotal, length_append, Nat.add_assoc], hlen'.trans hlen⟩

theorem Body.Gave.fits {bs : Bytes} (h : b.Gave bs b') : b'.Fits := by
  cases b' with
  | plain src' ending' => trivial
  | chunked c' =>
    cases b with
    | plain src ending => exact h.elim
    | chunked c => exact h.1

theorem body_read (hm : 0 < m) (hb : b.Fits) (h : b.read m = (out, err, b')) :
    b.Gave out b' ∧ out.length ≤ m ∧ ∀ src ending e, b = .plain src ending → err = some e →
      e = ending := by
  cases b with
  | plain src ending =>
    rw [Body.read, if_neg (by omega)] at h
    obtain ⟨o, eof, src', hread⟩ : ∃ o eof src', src.read m = (o, eof, src') := ⟨_, _, _, rfl⟩
    obtain ⟨hsplit, hlen, -, -⟩ := Data.Source.read_spec hm hread
    rw [hread] at h
    cases h
    refine ⟨⟨hsplit, rfl⟩, hlen, fun src₁ ending₁ e hb he => ?_⟩
    cases hb
    split at he
    · exact (Option.some.inj he).symm
    · cases he
  | chunked c =>
    rw [Body.read] at h
    obtain ⟨o, err', c', hread⟩ : ∃ o err' c', c.read m = (o, err', c') := ⟨_, _, _, rfl⟩
    rw [hread] at h
    cases h
    rw [ChunkedBody.read, if_neg (by omega)] at hread
    cases turns_counts hm hb hread with
    | ret hb' htotal hlen hs => exact ⟨⟨hb', htotal, hlen⟩, hs, nofun⟩

/-- Between the two `bs` was read and hashed. -/
structure Took (r : UploadReader hash) (bs : Bytes) (r' : UploadReader hash) : Prop where
  body : r.body.Gave bs r'.body
  h : r'.h = r.h
  state : ∀ d ∈ r.h, r'.state d = (hash d).write (r.state d) bs

variable {r r' : UploadReader hash}

theorem took_nil (hr : r.body.Fits) : Took r [] r :=
  ⟨Body.gave_nil hr, rfl, fun d _ => ((hash d).write_nil _).symm⟩

theorem Took.trans {r'' : UploadReader hash} {bs bs' : Bytes} (h : Took r bs r')
    (h' : Took r' bs' r'') : Took r (bs ++ bs') r'' := by
  refine ⟨h.body.trans h'.body, h'.h.trans h.h, fun d hd => ?_⟩
  rw [h'.state d (h.h ▸ hd), h.state d hd, (hash d).write_append]

theorem reader_read (hm : 0 < m) (hr : r.body.Fits) (h : r.read m = (out, err, r')) :
    Took r out r' ∧ out.length ≤ m ∧ ∀ src ending e, r.body = .plain src ending → err = some e →
      e = ending := by
  rw [UploadReader.read] at h
  obtain ⟨o, err', b', hread⟩ : ∃ o err' b', r.body.read m = (o, err', b') := ⟨_, _, _, rfl⟩
  obtain ⟨hgave, hlen, herr⟩ := body_read hm hr hread
  rw [hread] at h
  cases h
  refine ⟨⟨hgave, rfl, fun d hd => ?_⟩, hlen, herr⟩
  by_cases ho : out = []
  · simp [ho, (hash d).write_nil]
  · simp [ho, hd]

theorem readFull_took {n : Nat} {acc data : Bytes} (hr : r.body.Fits)
    (h : readFull fuel n acc r = some (.ok data, r')) :
    ∃ bs, data = acc ++ bs ∧ bs.length = n ∧ Took r bs r' := by
  induction fuel generalizing n acc r with
  | zero =>
    cases n with
    | zero =>
      cases h
      exact ⟨[], by simp, rfl, took_nil hr⟩
    | succ n => cases h
  | succ fuel ih =>
    cases n with
    | zero =>
      cases h
      exact ⟨[], by simp, rfl, took_nil hr⟩
    | succ n =>
      rw [readFull] at h
      obtain ⟨out, err, r₁, hread⟩ : ∃ out err r₁, r.read (n + 1) = (out, err, r₁) := ⟨_, _, _, rfl⟩
      obtain ⟨htook, hlen, -⟩ := reader_read (Nat.succ_pos n) hr hread
      rw [hread] at h
      dsimp only at h
      split at h
      · next hle =>
        cases h
        exact ⟨out, rfl, Nat.le_antisymm hlen hle, htook⟩
      · next hlt =>
        cases err with
        | some e => cases h
        | none =>
          obtain ⟨bs, rfl, hbs, htook'⟩ := ih htook.body.fits h
          exact ⟨out ++ bs, by simp, by rw [length_append]; omega, htook.trans htook'⟩

theorem copyBuffer_took {pushes : List Bytes} (hm : 0 < m) (hr : r.body.Fits)
    (h : copyBuffer m fuel r = some (.ok pushes, r')) :
    Took r pushes.flatten r' ∧ ∀ src ending, r.body = .plain src ending → ending = .eof := by
  induction fuel generalizing r pushes with
  | zero => cases h
  | succ fuel ih =>
    rw [copyBuffer] at h
    obtain ⟨out, err, r₁, hread⟩ : ∃ out err r₁, r.read m = (out, err, r₁) := ⟨_, _, _, rfl⟩
    obtain ⟨htook, -, herr⟩ := reader_read hm hr hread
    have hout : ∀ outs : List Bytes, (if out = [] then outs else out :: outs).flatten = out ++
        outs.flatten := by
      intro outs
      split
      · next ho => simp [ho]
      · rfl
    rw [hread] at h
    cases err with
    | some e =>
      simp only [Option.some.injEq, Prod.mk.injEq] at h
      obtain ⟨hres, rfl⟩ := h
      split at hres
      · next he =>
        cases hres
        refine ⟨?_, fun src ending hb => ((herr src ending e hb rfl).symm.trans he)⟩
        have := hout []
        rw [flatten_nil, append_nil] at this
        rwa [this]
      · cases hres
    | none =>
      obtain ⟨⟨res, r₂⟩, hrest, hpair⟩ := Option.map_eq_some_iff.1 h
      cases res with
      | error e => cases hpair
      | ok outs =>
        cases hpair
        obtain ⟨htook', hplain⟩ := ih htook.body.fits hrest
        refine ⟨by rw [hout]; exact htook.trans htook', fun src ending hb => ?_⟩
        have hgave := htook.body
        rw [hb] at hgave
        cases hb₁ : r₁.body with
        | plain src₁ ending₁ =>
          rw [hb₁] at hgave
          exact hgave.2.symm.trans (hplain src₁ ending₁ hb₁)
        | chunked c => rw [hb₁] at hgave; exact hgave.elim

end Pgvs3.Ingest
