import Pgvs3.Tier.Statement
import Pgvs3.Store.ByteRange
/-!
# The cache tier: the requests of `objcache.Tier`

Of a batch, one key.

Spooling, key validation and process semaphores only decide whether a request goes on: a request
that could fail there can fail at its first statement here. `time.Since(m.CreatedAt)` is taken at
the time of the query that read `m`.
-/

namespace Pgvs3.Tier

open Conc

/-- What a reader gets: the ETag, the size, and the body where one was opened
(`objcache/cache.go:293-298`). -/
structure View where
  etag : Text
  size : Nat
  body : Option Body
deriving DecidableEq, Repr

inductive Res where
  | written (etag : Text)
  | deleted
  | found (v : View)
  | notFound
  | precondition
  | conflict
  | flushed (etag : Text)
  | skipped
  | failed
deriving DecidableEq, Repr

abbrev Req := Prog Stmt Stmt.Ans

/-- The tier as a system of requests on one key. -/
abbrev sys (N : Naming) : Sys where
  Stmt := Stmt
  Ans := Stmt.Ans
  Res := Res
  World := World
  Ev := Ev
  exec := exec N
  env := env N
  done _ _ w := w

def ask (s : Stmt) : Req s.Ans := Prog.stmt s

/-! ## Rows -/

def liveRow (r : Option Row) (now : Nat) : Option Row := r.filter (·.live now)

/-- `Cache.Metadata`: the write-back row first, then the read-cache row (`object.go:420-454`). -/
def Rows.lookup (s : Rows) : Option (Side × Row) :=
  match liveRow s.wb s.now with
  | some r => some (.write, r)
  | none => (liveRow s.rc s.now).map fun r => (.read, r)

/-- `Tier.currentMeta`: a tombstone counts as nothing (`objcache/cache.go:771-777`). -/
def Rows.current (s : Rows) : Option Row :=
  match s.lookup with
  | some (_, r) => if (versionOf r).isDeleted then none else some r
  | none => none

/-- `orValue(m.OriginETag, m.ETag)` (`objcache/cache.go:899`). -/
def originETag (r : Row) : Text :=
  match versionOf r with
  | .live [] => r.etag
  | .live v => v
  | _ => []

/-- `responseETag`, and the stored ETag for a write-back row (`cachedInfo`, `responseETagSliceFor`)
(`objcache/cache.go:903-908`). -/
def responseETag (side : Side) (r : Row) : Text :=
  if side = .write ∨ (versionOf r).isPending then r.etag else originETag r

/-! ## Writes -/

section Writes

variable (N : Naming) (g : Gateway)

/-- `lockWrite`: the gateway's mutex, then the session lock (`objcache/cache.go:1322-1344`). -/
def lockWrite : Req Bool := do
  ask (.lockKey g.id)
  if ← ask .lockSession then
    return true
  else
    ask (.unlockKey g.id)
    return false

def releaseWrite : Req Unit := do
  ask .unlockSession
  ask (.unlockKey g.id)

/-- Run `p` between `lockWrite` and its release (`objcache/cache.go:1317-1320`). -/
def withLockWrite (p : Req Res) : Req Res := do
  if ← lockWrite g then
    let r ← p
    releaseWrite g
    return r
  else
    return .failed

/-- `requireWrite`: a read-only tier refuses (`objcache/cache.go:1307-1315`). -/
def requireWrite (p : Req Res) : Req Res := if g.readOnly then return .failed else p

/-- `If-Match` of the visible object's own ETag is turned into its origin version. -/
def resolveIfMatch (m : Row) (e : Text) : Except Res Precondition :=
  if m.etag = e then
    match versionOf m with
    | .pending _ | .live [] => .error .conflict
    | .live v => .ok (.ifMatch v)
    | .deleted _ => .ok (.ifMatch e)
  else .ok (.ifMatch e)

def resolveWith (cur : Option Row) (pre : Precondition) : Except Res Precondition :=
  match cur, pre with
  | some _, .ifAbsent => .error .precondition
  | some m, .ifMatch e => resolveIfMatch m e
  | _, _ => .ok pre

theorem resolveWith_error {cur : Option Row} {pre : Precondition} {e : Res} (h : resolveWith cur pre = .error e) :
    e = .precondition ∨ e = .conflict := by
  unfold resolveWith at h
  split at h
  · cases h
    exact .inl rfl
  · unfold resolveIfMatch at h
    split at h
    · split at h <;> cases h <;> exact .inr rfl
    · cases h
  · cases h

/-- `objcache/cache.go:1346-1364`. -/
def resolvePrecondition (pre : Precondition) : Req (Except Res Precondition) := do
  if pre = .none then
    return .ok pre
  else
    match ← ask .rows with
    | none => return .error .failed
    | some s => return resolveWith s.current pre

/-- `fenceReadCache`: a tombstone in the read cache. -/
def fence (now : Nat) : Update :=
  .publish .read .tombstone (N.md5 ⟨0, 0⟩) ⟨0, 0⟩ (some (now + originTombstoneTTL))

/-- The row of a tombstone: no body, and the version `deleted`. -/
def tombstoneRow (w : World) (now : Nat) : Row :=
  ⟨N.md5 ⟨0, 0⟩, ⟨⟨0, 0⟩, none⟩, some (now + originTombstoneTTL), some (.deleted w.now), w.now⟩

theorem publishedRow_tombstone (w : World) (side : Side) (now : Nat) :
    publishedRow w side .tombstone (N.md5 ⟨0, 0⟩) ⟨0, 0⟩ (some (now + originTombstoneTTL)) = some (tombstoneRow N w now) := by
  rw [publishedRow_of_not_fill w (by simp)]
  simp [tombstoneRow, fileFor, PubKind.version]

theorem apply_fence (w : World) (now : Nat) :
    (fence N now).apply w = (some (tombstoneRow N w now),
      { w with rc := some (tombstoneRow N w now), fresh := w.fresh + 1, ometa := none }) :=
  publish_read w (publishedRow_tombstone N w .read now)

/-- `_ = t.fenceReadCache(..)` (`objcache/cache.go:1455-1458`). -/
def fenceReadCache : Req Unit := do
  let now ← ask .clock
  let _ ← ask (.attempt (fence N now))

/-- `storeSpooled` into the write-back namespace under the session lock
(`objcache/cache.go:1250-1305`). -/
def storeSpooled (k : PubKind) (body : Body) : Req (Option (Option Row)) := do
  let now ← ask .clock
  let exp := if k = .pending then none else some (now + g.retentionFor .write)
  ask (.db (.publish .write k (N.md5 body) body exp))

/-- The write-back path of `UploadWithOptions`. -/
def uploadPending (body : Body) : Req Res := do
  match ← storeSpooled N g .pending body with
  | some (some r) =>
    fenceReadCache N
    return .written r.etag
  | _ => return .failed

/-- The write-through path: origin, write-back row, fence, outbox. -/
def uploadThrough (body : Body) (pre : Precondition) : Req Res := do
  match ← ask (.originUpload body pre g.conditional) with
  | .precondition => return .precondition
  | .unsupported | .failed => return .failed
  | .ok version =>
    let m ← storeSpooled N g (.normal version) body
    fenceReadCache N
    let _ ← ask (.attempt .clearPending)
    match m with
    | some (some r) => return .written r.etag
    | _ => return .failed

def uploadLocked (body : Body) (pre : Precondition) : Req Res := do
  match ← resolvePrecondition pre with
  | .error e => return e
  | .ok pre =>
    if g.writeBack ∧ writeBackMin < body.size ∧ pre = .none then uploadPending N g body
    else uploadThrough N g body pre

/-- `objcache/cache.go:1388-1453`. -/
def uploadWithOptions (body : Body) (pre : Precondition) : Req Res :=
  requireWrite g (withLockWrite g (uploadLocked N g body pre))

/-! ## Flushes -/

def flushCondition (p : Entry) : Precondition :=
  if p.baseMissing then .ifAbsent else if p.baseETag = [] then .none else .ifMatch p.baseETag

/-- `objcache/cache.go:1701-1754`. -/
def flushOneNoLock (p : Entry) (owner : Nat) : Req Res := do
  match ← ask .rows with
  | none => return .failed
  | some s =>
    match liveRow s.wb s.now with
    | none =>
      let _ ← ask (.attempt (.failPending p.token owner p.attempts true))
      return .failed
    | some sm =>
      if versionOf sm ≠ .pending p.token then
        let _ ← ask (.attempt (.clearToken p.token))
        return .skipped
      else
        match ← ask (.originUpload sm.body.body (flushCondition p) g.conditional) with
        | .precondition =>
          let _ ← ask (.attempt (.abandon p.token))
          let _ ← ask (.attempt .deleteCacheRow)
          return .precondition
        | .unsupported =>
          let _ ← ask (.attempt (.failPending p.token owner p.attempts true))
          return .failed
        | .failed =>
          let _ ← ask (.attempt (.failPending p.token owner p.attempts false))
          return .failed
        | .ok version =>
          let now ← ask .clock
          match ← ask (.db (.markCommitted p.token version (now + g.durableRetention))) with
          | none =>
            let _ ← ask (.attempt (.failPending p.token owner p.attempts false))
            return .failed
          | some owned => if owned = true then return .flushed sm.etag else return .skipped

/-- `objcache/cache.go:1692-1699`. -/
def flushOne (p : Entry) (owner : Nat) : Req Res := withLockWrite g (flushOneNoLock g p owner)

/-- One round of `runPendingWorker` (`objcache/cache.go:1756-1764`). -/
def runPendingOnce (owner : Nat) : Req Res := do
  match ← ask (.db (.claim owner)) with
  | some (some p) => flushOne g p owner
  | _ => return .skipped

/-! ## CompleteUpload and deletes -/

/-- The conditional path: publish with the origin's base version, flush at once. -/
def completeConditional (body : Body) (exp : Nat) (base : Option OriginObj) : Req Res := do
  let baseETag := (base.map (·.version)).getD []
  match ← ask (.db (.complete (N.s3ETag body) body (some exp) baseETag base.isNone (some g.id))) with
  | none => return .failed
  | some e =>
    fenceReadCache N
    match ← flushOneNoLock g e g.id with
    | .precondition =>
      let _ ← ask (.attempt .deleteCacheRow)
      return .precondition
    | .flushed etag => return .written etag
    | .skipped => return .precondition
    | _ => return .failed

/-- The part of `CompleteUpload` after the base version is known. -/
def completeChecked (body : Body) (pre : Precondition) (exp : Nat) (base : Option OriginObj) : Req Res := do
  match ← resolvePrecondition pre with
  | .error e => return e
  | .ok pre =>
    if pre.allows base.isSome ((base.map (·.version)).getD []) then completeConditional N g body exp base
    else return .precondition

def completeLocked (body : Body) (pre : Precondition) (exp : Nat) : Req Res := do
  if g.writeBack ∧ pre = .none then
    match ← ask (.db (.complete (N.s3ETag body) body none [] false none)) with
    | none => return .failed
    | some _ =>
      fenceReadCache N
      return .written (N.s3ETag body)
  else
    match ← ask .originRead with
    | .found o => completeChecked N g body pre exp (some o)
    | .missing => completeChecked N g body pre exp none
    | _ => return .failed

/-- `objcache/cache.go:1499-1572`. -/
def completeUpload (body : Body) (pre : Precondition) : Req Res :=
  requireWrite g do
    let now ← ask .clock
    withLockWrite g (completeLocked N g body pre (now + g.durableRetention))

/-- The tombstone in the write-back namespace, under the caller's lock or its own. -/
def tombstone (now : Nat) : Update :=
  .publish .write .tombstone (N.md5 ⟨0, 0⟩) ⟨0, 0⟩ (some (now + originTombstoneTTL))

theorem apply_tombstone (w : World) (now : Nat) :
    (tombstone N now).apply w = (some (tombstoneRow N w now), { w with wb := some (tombstoneRow N w now), fresh := w.fresh + 1 }) :=
  publish_write w (publishedRow_tombstone N w .write now)

/-- What `Delete` and `DeleteMany` share once the origin has deleted: both tombstones, the outbox.
-/
def deleteRows (now : Nat) : Req Res := do
  match ← ask (.db (tombstone N now)) with
  | none => return .failed
  | some _ =>
    let now ← ask .clock
    match ← ask (.db (fence N now)) with
    | none => return .failed
    | some _ =>
      let _ ← ask (.attempt .clearPending)
      return .deleted

def deleteLocked : Req Res := do
  if ← ask .originDelete then
    let now ← ask .clock
    deleteRows N now
  else
    return .failed

/-- `objcache/cache.go:1597-1619`. -/
def delete : Req Res := requireWrite g (withLockWrite g (deleteLocked N))

/-- `DeleteMany` holds the gateway's mutex only (`objcache/cache.go:1626-1690`). -/
def deleteMany : Req Res :=
  requireWrite g do
    ask (.lockKey g.id)
    let r ← deleteLocked N
    ask (.unlockKey g.id)
    return r

end Writes

/-! ## Head -/

section Reads

variable (N : Naming) (g : Gateway)

/-- `cacheResolution`: the row read and its namespace, what it says, and the origin's answer
(`objcache/cache.go:304-312`). -/
structure Resolution where
  entry : Option (Side × Row)
  info : Info
  attrs : Option OriginObj
  valid : Bool
  attrsValid : Bool
deriving DecidableEq, Repr

/-- `cachedInfo` (`objcache/cache.go:408-415`). -/
def cachedInfo (side : Side) (r : Row) : Info := ⟨r.body.body.size, responseETag side r, originETag r⟩

/-- `originAttrs.objectInfo`. -/
def OriginObj.info (o : OriginObj) : Info := ⟨o.body.size, o.version, o.version⟩

/-- `DoChan("head:"+ck, ..)`: the origin's answer, asked once for all callers of the gateway. -/
def coalesceHead : Req Fetched := do
  if ← ask (.join ⟨g.id, .head⟩) then
    let r ← ask .originRead
    ask (.finish ⟨g.id, .head⟩ r)
    return r
  else
    ask .wait

/-- Every range read of this tier remembers the origin's answer (`cache.go:338`, `:380`). -/
def Gateway.ranges (g : Gateway) : Bool := 0 < g.rangeSize && 0 < g.ttl

/-- The origin has the version and the size of the row. -/
def sameAsOrigin (r : Row) (o : OriginObj) : Bool :=
  r.body.body.size == o.body.size && versionOf r == .live o.version

/-- The end of `resolveCache`: a row that disagrees with the origin is taken out. -/
def dropStale (deleteStale : Bool) (side : Side) (r : Row) (o : OriginObj) : Req (Except Res Resolution) :=
  match side with
  | .write => do
    if g.readOnly then
      return .ok ⟨none, o.info, some o, false, false⟩
    else
      match ← ask (.db (.retire r)) with
      | none => return .error .failed
      | some _ => return .ok ⟨none, o.info, some o, false, false⟩
  | .read => do
    if !g.readOnly ∧ deleteStale then
      let _ ← ask (.attempt (.deleteExpected (versionOf r)))
      return .ok ⟨some (side, r), o.info, some o, false, false⟩
    else
      return .ok ⟨some (side, r), o.info, some o, false, false⟩

/-- The origin has the object: remember it, refresh the row, or take the row out. -/
def validateFound (deleteStale : Bool) (m : Option (Side × Row)) (validated : Nat) (o : OriginObj) : Req (Except Res Resolution) :=
  match m with
  | none => do
    if g.ranges ∧ g.rangeSize < o.body.size ∧ !g.readOnly then
      match ← ask (.db (.remember o.info validated (min g.ttl g.retention))) with
      | none => return .error .failed
      | some _ => return .ok ⟨none, o.info, some o, false, false⟩
    else
      return .ok ⟨none, o.info, some o, false, false⟩
  | some (side, r) =>
    if sameAsOrigin r o then do
      if g.readOnly then
        return .ok ⟨m, cachedInfo side r, some o, true, false⟩
      else
        let _ ← ask (.attempt (.touch side (g.retentionFor side)))
        return .ok ⟨m, cachedInfo side r, some o, true, false⟩
    else dropStale g deleteStale side r o

/-- The origin does not have the object: a write-back row of it is retired. -/
def validateMissing (m : Option (Side × Row)) : Req (Except Res Resolution) :=
  match m with
  | some (.write, r) => do
    if g.readOnly then
      return .error .notFound
    else
      let _ ← ask (.attempt (.retire r))
      return .error .notFound
  | _ => return .error .notFound

/-- Ask the origin about the row `m`, or about the key when there is none. -/
def validate (deleteStale : Bool) (m : Option (Side × Row)) : Req (Except Res Resolution) := do
  let validated ← ask .clock
  match ← coalesceHead g with
  | .found o => validateFound g deleteStale m validated o
  | .missing => validateMissing g m
  | _ => return .error .failed

/-- `OriginMetadata`: remembered, not expired, and validated less than `ttl` ago. -/
def freshMeta (m : Option OriginMeta) (now : Nat) : Option Info :=
  (m.filter fun x => now < x.expiresAt && now < x.validatedAt + g.ttl).map (·.info)

/-- Without a row: the remembered answer of the origin, or a new one. -/
def resolveMiss (deleteStale : Bool) : Req (Except Res Resolution) := do
  if g.ranges then
    match ← ask .originMeta with
    | none => return .error .failed
    | some (m, now) =>
      match freshMeta g m now with
      | some info => return .ok ⟨none, info, none, false, true⟩
      | none => validate g deleteStale none
  else validate g deleteStale none

/-- `resolveCache` (`objcache/cache.go:314-406`). -/
def resolveCache (deleteStale skipAttributesOnMiss : Bool) : Req (Except Res Resolution) := do
  match ← ask .rows with
  | none => return .error .failed
  | some s =>
    match s.lookup with
    | some (side, r) =>
      match versionOf r with
      | .deleted _ => return .error .notFound
      | .pending _ => return .ok ⟨some (side, r), cachedInfo side r, none, true, false⟩
      | .live _ =>
        if 0 < g.ttl ∧ s.now < r.createdAt + g.ttl then
          return .ok ⟨some (side, r), cachedInfo side r, none, true, false⟩
        else validate g deleteStale (some (side, r))
    | none =>
      if skipAttributesOnMiss then return .ok ⟨none, ⟨0, [], []⟩, none, false, false⟩
      else resolveMiss g deleteStale

/-- `objcache/cache.go:417-428`. -/
def head : Req Res := do
  match ← resolveCache g false false with
  | .error e => return e
  | .ok res => return .found ⟨res.info.etag, res.info.size, none⟩

/-! ## Fills -/

/-- The probe of `acquireFill`: `none` when there is nothing in either namespace. -/
def probe : Req (Option Fetched) := do
  match ← ask .rows with
  | none => return some .failed
  | some s =>
    match s.lookup with
    | none => return none
    | some (_, r) =>
      match versionOf r with
      | .deleted _ => return some .missing
      | .pending _ => return some .pending
      | .live _ => return some (.row r)

/-- `acquireFill`: a lease, or the result to return at once. The loop ends at its deadline
(`objcache/cache.go:987-1026`). -/
def acquireFill : Nat → Req (Except Fetched Nat)
  | 0 => return .error .busy
  | n + 1 => do
    match ← probe with
    | some r => return .error r
    | none =>
      match ← ask (.db .acquireLease) with
      | none => return .error .failed
      | some none => acquireFill n
      | some (some owner) =>
        match ← probe with
        | some r =>
          let _ ← ask (.attempt (.releaseLease owner))
          return .error r
        | none => return .ok owner

/-- `currentFillResult` (`objcache/cache.go:1098-1104`). -/
def currentFillResult : Req Fetched := do
  match ← ask .rows with
  | none => return .failed
  | some s =>
    match s.current with
    | some r => return .row r
    | none => return .stale

/-- The body of `fill`: get the object and publish it under the lease
(`objcache/cache.go:1067-1096`). -/
def fetch (owner : Nat) : Req Fetched := do
  match ← ask .originRead with
  | .found o =>
    let now ← ask .clock
    match ← ask (.db (.publish .read (.fill o.version owner) (N.md5 o.body) o.body (some (now + g.retentionFor .read)))) with
    | none => return .failed
    | some (some r) => return .row r
    | some none => currentFillResult
  | .missing => return .missing
  | _ => return .failed

/-- The function that `coalesceFill` runs once for all callers of the gateway. -/
def fillOnce (n : Nat) : Req Fetched := do
  ask (.lockKey g.id)
  match ← acquireFill n with
  | .error r =>
    ask (.unlockKey g.id)
    return r
  | .ok owner =>
    let r ← fetch N g owner
    let lost ← ask .cancelled
    let _ ← ask (.attempt (.releaseLease owner))
    ask (.unlockKey g.id)
    return if lost then .stale else r

/-- `objcache/cache.go:949-985`. -/
def coalesceFill (n : Nat) : Req Fetched := do
  if ← ask (.join ⟨g.id, .fill⟩) then
    let r ← fillOnce N g n
    ask (.finish ⟨g.id, .fill⟩ r)
    return r
  else
    ask .wait

/-! ## Open -/

/-- `openCached`: a row that has expired since it was read is not found
(`objcache/cache.go:551-564`). -/
def openCached (side : Side) (r : Row) : Req Res := do
  match ← ask (.stillLive r) with
  | none => return .failed
  | some live =>
    if live then return .found ⟨responseETag side r, r.body.body.size, some r.body.body⟩ else return .notFound

/-- `passThrough` with the ETag of an earlier answer (`objcache/cache.go:620-630`). -/
def passThrough (etag : Text) : Req Res := do
  match ← ask .originRead with
  | .found o => return .found ⟨etag, o.body.size, some o.body⟩
  | .missing => return .notFound
  | _ => return .failed

/-- `passThroughWhole` (`objcache/cache.go:595-618`). -/
def passThroughWhole : Req Res := do
  match ← ask .originRead with
  | .found o => return .found ⟨o.version, o.body.size, some o.body⟩
  | .missing => return .notFound
  | _ => return .failed

/-- `openPending`: straight to the origin (`objcache/cache.go:566-593`). -/
def openPending (rng : ByteRange) : Req Res := do
  match ← ask .originRead with
  | .found o =>
    match rng.resolve o.body.size with
    | none => return .failed
    | some _ =>
      if o.body.size = 0 then return .found ⟨o.version, 0, some o.body⟩ else passThrough o.version
  | .missing => return .notFound
  | _ => return .failed

/-- `openRange`: the chunks of a version, from the cache or from the origin at that version
(`objcache/cache.go:638-694`). -/
def openRange (version : Text) (rng : ByteRange) : Req Res := do
  match ← ask (.chunk version) with
  | none => return .failed
  | some (some b) => return .found ⟨version, b.size, some b⟩
  | some none =>
    if g.readOnly then openPending rng
    else
      match ← ask .originRead with
      | .found o =>
        if etagMatches version o.version then
          let _ ← ask (.attempt (.putChunk version o.body))
          return .found ⟨version, o.body.size, some o.body⟩
        else
          let _ ← ask (.attempt (.forget version))
          openPending rng
      | .missing =>
        let _ ← ask (.attempt (.forget version))
        openPending rng
      | _ => return .failed

/-- After a fill: a write-back row that has come in the meantime goes before the filled one. -/
def openFilled (r : Row) (rng : ByteRange) : Req Res := do
  let s ← ask .rows
  match s.bind fun s => liveRow s.wb s.now with
  | some wm =>
    if (versionOf wm).isDeleted then return .notFound
    else if (rng.resolve wm.body.body.size).isNone then return .failed
    else openCached .write wm
  | none => if (rng.resolve r.body.body.size).isNone then return .failed else openCached .read r

/-- `objcache/cache.go:255`. -/
inductive CacheAction where
  | zero
  | passThrough
  | range
  | cached
deriving DecidableEq, Repr

/-- `planCacheRead` (`objcache/cache.go:269-289`). -/
def planCacheRead (res : Resolution) (size : Nat) (span : Span) : CacheAction :=
  let length := (span.stop - span.start + 1).toNat
  if size = 0 then .zero
  else if g.readOnly ∧ !res.valid ∧ !res.attrsValid then .passThrough
  else if 0 < g.rangeSize ∧ !res.valid ∧ g.rangeSize < size ∧ length < size ∧ length ≤ maxRangeCacheSpan then .range
  else if res.valid ∨ length = size ∨ size ≤ fullCacheMax then .cached
  else .passThrough

/-- `openZero` (`objcache/cache.go:518-549`). -/
def openZero (n : Nat) (res : Resolution) (rng : ByteRange) : Req Res := do
  let zero : Res := .found ⟨res.info.etag, 0, some ⟨0, 0⟩⟩
  if res.valid ∨ g.readOnly then
    return zero
  else
    match ← coalesceFill N g n with
    | .pending | .busy => return zero
    | .stale => openPending rng
    | .missing => return .notFound
    | .row r =>
      if r.body.body.size ≠ 0 then openPending rng
      else return .found ⟨responseETag .read r, 0, some r.body.body⟩
    | _ => return .failed

/-- The cached action of `Open`, with the row it resolved to. -/
def openResolved (n : Nat) (res : Resolution) (rng : ByteRange) : Req Res := do
  match res.valid, res.entry with
  | true, some (side, r) => openCached side r
  | _, _ =>
    if g.readOnly then passThrough res.info.etag
    else
      match ← coalesceFill N g n with
      | .pending | .busy => passThrough res.info.etag
      | .stale => openPending rng
      | .missing => return .notFound
      | .row r => if r.body.body.size ≠ res.info.size then openPending rng else openFilled r rng
      | _ => return .failed

/-- A whole read with no row: fill, without asking for the attributes first. -/
def openMiss (n : Nat) (rng : ByteRange) : Req Res := do
  if g.readOnly then passThroughWhole
  else
    match ← coalesceFill N g n with
    | .pending | .busy | .stale => openPending rng
    | .missing => return .notFound
    | .row r => openFilled r rng
    | _ => return .failed

/-- `Tier.Open` (`objcache/cache.go:430-516`). -/
def openObject (n : Nat) (rng : ByteRange) : Req Res := do
  match ← resolveCache g true (!rng.requested) with
  | .error e => return e
  | .ok res =>
    if !rng.requested ∧ res.entry = none then openMiss N g n rng
    else
      match rng.resolve res.info.size with
      | none => return .failed
      | some span =>
        match planCacheRead g res res.info.size span with
        | .zero => openZero N g n res rng
        | .passThrough => passThrough res.info.etag
        | .range => openRange g res.info.originETag rng
        | .cached => openResolved N g n res rng

end Reads

end Pgvs3.Tier
