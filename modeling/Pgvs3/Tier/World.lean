import Pgvs3.Conc.Prog
import Pgvs3.Store.Publish
import Pgvs3.Store.Sweep
/-!
# The cache tier: what the gateways share about one key

`wb` and `rc` are the key's rows in the write-back and the read-cache namespace, `outbox` is
`s3p.pending_uploads`, `lease` `s3p.cache_fill_leases`, `ometa` `origin_metadata`, `chunks` the
cached range chunks by origin version, `session` the lock of `LockCacheKey`
(`store/cache.go:972-997`), `keyLock` and `flights` the `keyLocks` and the `singleflight.Group` of
each gateway.

Bodies are named by a number and a size; times count milliseconds on one clock. Pending tokens,
lease owners and file ids are unique: they are drawn from the counter `fresh` by the statement that
first stores them. An origin never answers an ETag that starts with `pending:` or `deleted:`, so a
version is a `CacheVersion`.
-/

namespace Pgvs3.Tier

open Conc

structure Body where
  content : Nat
  size : Nat
deriving DecidableEq, Repr

/-- `store/cache.go:62-66`. -/
inductive CacheVersion where
  | live (origin : Text)
  | pending (token : Nat)
  | deleted (at_ : Nat)
deriving DecidableEq, Repr

/-- `store/cache.go:101`. -/
def CacheVersion.isLive : CacheVersion → Bool
  | .live _ => true
  | _ => false

/-- `store/object.go:288`. -/
def CacheVersion.isPending : CacheVersion → Bool
  | .pending _ => true
  | _ => false

/-- `store/cache.go:105`. -/
def CacheVersion.isDeleted : CacheVersion → Bool
  | .deleted _ => true
  | _ => false

/-- What a row stores; `file` is `file_id`, null for inline data. -/
structure Stored where
  body : Body
  file : Option Nat
deriving DecidableEq, Repr

abbrev Row := ObjectRow CacheVersion Stored

/-- `ParseCacheVersion` of the row's `origin_etag`; null reads as the empty version. -/
def versionOf (r : Row) : CacheVersion := r.originETag.getD (.live [])

@[simp] theorem versionOf_mk (etag : Text) (body : Stored) (exp : Option Nat) (v : CacheVersion) (created : Nat) :
    versionOf ⟨etag, body, exp, some v, created⟩ = v := rfl

inductive Side where
  | write
  | read
deriving DecidableEq, Repr

/-- The size limit of inline values, `ns.go:87-92`. -/
def Side.inlineMax : Side → Nat
  | .write => 65536
  | .read => 8120

structure OriginObj where
  body : Body
  version : Text
deriving DecidableEq, Repr

/-- The texts that hashing and the origin choose: the ETag of a body, of a multipart body, the
version of the `n`-th upload; and the key, which orders evictions. -/
structure Naming where
  md5 : Body → Text
  s3ETag : Body → Text
  version : Body → Nat → Text
  key : Text
  /-- The origin's client sends an upload again whose answer is lost: `s3client.do`
  (`client.go:288-320`) does, the file driver does not. -/
  resends : Bool

/-- One gateway and its tier options (`objcache/cache.go:27-53`). -/
structure Gateway where
  id : Nat
  ttl : Nat
  retention : Nat
  rangeSize : Nat
  readOnly : Bool
  writeBack : Bool
  /-- The origin supports conditional writes. -/
  conditional : Bool
deriving DecidableEq, Repr

/-! ## Constants (`objcache/cache.go:55-64`) -/

def minute : Nat := 60 * 1000
def writeBackMin : Nat := 8 * 1024 * 1024
def fullCacheMax : Nat := 8 * 1024 * 1024
def maxRangeCacheSpan : Nat := 64 * 1024 * 1024
def originTombstoneTTL : Nat := 30 * minute
/-- `objcache/cache.go:1028-1033`. -/
def fillLeaseTTL : Nat := 2 * minute

/-- `Tier.durableRetention` (`objcache/cache.go:227`). -/
def Gateway.durableRetention (g : Gateway) : Nat := max g.retention originTombstoneTTL

def Gateway.retentionFor (g : Gateway) : Side → Nat
  | .write => g.durableRetention
  | .read => g.retention

/-! ## The shared state -/

/-- A row of `s3p.pending_uploads` (`store/cache.go:1039-1048`). -/
structure Entry where
  token : Nat
  baseETag : Text
  baseMissing : Bool
  attempts : Nat
  dead : Bool
  nextAttempt : Nat
  leaseOwner : Option Nat
  leaseUntil : Option Nat
deriving DecidableEq, Repr

/-- `store/object.go:248-252`. -/
structure Lease where
  owner : Nat
  expiresAt : Nat
deriving DecidableEq, Repr

/-- `store.ObjectInfo`, as far as the tier looks at it. -/
structure Info where
  size : Nat
  etag : Text
  originETag : Text
deriving DecidableEq, Repr

/-- `schema.sql:344-349`. -/
structure OriginMeta where
  info : Info
  validatedAt : Nat
  expiresAt : Nat
deriving DecidableEq, Repr

/-- What a coalesced call is about. Range fetches are coalesced too, which no caller can tell from
separate fetches. -/
inductive FlightOf where
  | head
  | fill
deriving DecidableEq, Repr

structure FlightKey where
  gateway : Nat
  what : FlightOf
deriving DecidableEq, Repr

structure Flight where
  leader : Nat
  waiters : List Nat
deriving DecidableEq, Repr

/-- What a coalesced call returns: an origin object, a row, or an error. -/
inductive Fetched where
  | found (o : OriginObj)
  | row (r : Row)
  | missing
  | pending
  | busy
  | stale
  | failed
deriving DecidableEq, Repr

structure World where
  now : Nat
  fresh : Nat
  origin : Option OriginObj
  wb : Option Row
  rc : Option Row
  outbox : Option Entry
  lease : Option Lease
  ometa : Option OriginMeta
  chunks : List (Text × Body)
  session : Option Nat
  keyLock : Nat → Option Nat
  flights : FlightKey → Option Flight
  /-- The result delivered to a waiter and not yet received. -/
  inbox : Nat → Option Fetched

def World.row (w : World) : Side → Option Row
  | .write => w.wb
  | .read => w.rc

def World.setRow (w : World) (side : Side) (r : Option Row) : World :=
  match side with
  | .write => { w with wb := r }
  | .read => { w with rc := r }

def World.empty : World where
  now := 0
  fresh := 0
  origin := none
  wb := none
  rc := none
  outbox := none
  lease := none
  ometa := none
  chunks := []
  session := none
  keyLock _ := none
  flights _ := none
  inbox _ := none

/-! ## A sample site -/

def sampleNaming : Naming where
  md5 b := List.replicate b.content 'm'
  s3ETag b := List.replicate b.content 's'
  version _ n := 'v' :: List.replicate n '1'
  key := ['k']
  resends := false

/-- A write-back gateway that asks the origin at every read. -/
def sampleGateway (id : Nat) : Gateway := ⟨id, 0, originTombstoneTTL, 0, false, true, true⟩

def largeBody : Body := ⟨2, 9 * 1024 * 1024⟩

end Pgvs3.Tier
