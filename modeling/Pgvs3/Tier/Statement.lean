import Pgvs3.Tier.World
/-!
# The cache tier: statements on the shared state

Each `Update` is one transaction that touches the rows of this key only. Every update can fail
without effect; a failed write or delete at the origin may have taken effect.
-/

namespace Pgvs3.Tier

open Conc List

/-- `store.Publication`: its kind with the version it stores and, for a fill, the lease owner. A
fill expects its own version (`cache.go:1088`). -/
inductive PubKind where
  | normal (origin : Text)
  | fill (origin : Text) (owner : Nat)
  | pending
  | tombstone
deriving DecidableEq, Repr

variable {r : Row} {t : Nat} {N : Naming}

/-! ## Publication -/

section Updates

variable (w : World)

def PubKind.version : PubKind → CacheVersion
  | .normal v | .fill v _ => .live v
  | .pending => .pending w.fresh
  | .tombstone => .deleted w.now

def PubKind.expected : PubKind → Option CacheVersion
  | .fill v _ => some (.live v)
  | _ => none

/-- The fill lease that `publish_value` asks for is held and has not expired (`schema.sql:457-463`).
-/
def PubKind.leased : PubKind → Bool
  | .fill _ owner => w.lease.any fun l => l.owner == owner && w.now < l.expiresAt
  | _ => true

/-- A value goes inline up to the limit of the namespace; a pending body never does. -/
def fileFor (side : Side) (k : PubKind) (size : Nat) : Option Nat :=
  if size ≤ side.inlineMax ∧ k ≠ .pending then none else some w.fresh

/-- The arguments of `publish_value`; `prepareWrite` takes the expiry off a pending body
(`object.go:314`). -/
def publishArgs (side : Side) (k : PubKind) (etag : Text) (body : Body) (exp : Option Nat) : PublishArgs CacheVersion Stored where
  etag := etag
  body := ⟨body, fileFor w side k body.size⟩
  cond := .none
  expiresAt := if k = .pending then none else exp
  keepTTL := false
  originETag := some (k.version w)
  expected := k.expected

/-- The row a publication leaves, unless it is stale. -/
def publishedRow (side : Side) (k : PubKind) (etag : Text) (body : Body) (exp : Option Nat) : Option Row :=
  let p := publishArgs w side k etag body exp
  if !k.leased w then none
  else match p.check (w.row side) w.now with
    | .ok => p.write (w.row side) w.now
    | _ => none

variable {etag : Text} {exp : Option Nat} {k : PubKind} {side : Side} {body : Body}

/-- A published row holds what the caller gave it; a fill held its lease and found no row of another
version. -/
theorem publishedRow_eq_some (h : publishedRow w side k etag body exp = some r) :
    r = ⟨etag, ⟨body, fileFor w side k body.size⟩, if k = .pending then none else exp, some (k.version w), w.now⟩ ∧
      k.leased w = true ∧ ∀ v, k.expected = some v → ∀ old, w.row side = some old → old.originETag = some v := by
  simp only [publishedRow] at h
  split at h
  · cases h
  · next hl =>
    split at h
    · next hc =>
      have hv : (publishArgs w side k etag body exp).versionDiffers (w.row side) = false := by
        simp only [PublishArgs.check] at hc
        split at hc
        · cases hc
        · split at hc
          · cases hc
          · next hv => simpa using hv
      simp only [PublishArgs.write, hv, Bool.false_eq_true, if_false, Option.some.injEq] at h
      refine ⟨?_, by simpa using hl, fun v hk old ho => ?_⟩
      · rw [← h]
        simp only [publishArgs, PublishArgs.newExpiry]
        split <;> simp
      · simpa [PublishArgs.versionDiffers, publishArgs, hk, ho] using hv
    · cases h

theorem publishedRow_of_not_fill (hk : ∀ v owner, k ≠ .fill v owner) : publishedRow w side k etag body exp =
      some ⟨etag, ⟨body, fileFor w side k body.size⟩, if k = .pending then none else exp, some (k.version w), w.now⟩ := by
  have he : k.expected = none := by
    cases k with
    | fill v owner => exact absurd rfl (hk v owner)
    | _ => rfl
  have hl : k.leased w = true := by
    cases k with
    | fill v owner => exact absurd rfl (hk v owner)
    | _ => rfl
  cases hr : publishedRow w side k etag body exp with
  | some r => rw [(publishedRow_eq_some w hr).1]
  | none =>
    simp [publishedRow, hl, PublishArgs.check, publishArgs, Precondition.sqlAllows, PublishArgs.versionDiffers, he,
      PublishArgs.write] at hr

/-- A new outbox entry (`write.go:533-545`, `:935-950`). -/
def newEntry (baseETag : Text) (baseMissing : Bool) (owner : Option Nat) : Entry where
  token := w.fresh
  baseETag := baseETag
  baseMissing := baseMissing
  attempts := 0
  dead := false
  nextAttempt := w.now
  leaseOwner := owner
  leaseUntil := owner.map fun _ => w.now + 5 * minute

/-- `publish_value`, with the outbox entry of a pending body in the same transaction
(`write.go:525-546`). -/
def publish (side : Side) (k : PubKind) (etag : Text) (body : Body) (exp : Option Nat) : Option Row × World :=
  match publishedRow w side k etag body exp with
  | none => (none, w)
  | some r =>
    (some r, { w.setRow side (some r) with
        fresh := w.fresh + 1
        ometa := if side = .read then none else w.ometa
        outbox := if side = .write ∧ k = .pending then some (newEntry w [] false none) else w.outbox })

theorem publish_write (hr : publishedRow w .write k etag body exp = some r) : publish w .write k etag body exp = (some r, { w with
        wb := some r, fresh := w.fresh + 1, outbox := if k = .pending then some (newEntry w [] false none) else w.outbox }) := by
  simp [publish, hr, World.setRow]

theorem publish_read (hr : publishedRow w .read k etag body exp = some r) :
    publish w .read k etag body exp = (some r, { w with rc := some r, fresh := w.fresh + 1, ometa := none }) := by
  simp [publish, hr, World.setRow]

/-- The multipart publication; the token is the upload id, which the transaction uses up
(`write.go:852-863`). -/
def completeUploadPending (etag : Text) (body : Body) (exp : Option Nat) (baseETag : Text) (baseMissing : Bool)
    (owner : Option Nat) : Entry × World :=
  let e := newEntry w baseETag baseMissing owner
  (e, { w with
      wb := some ⟨etag, ⟨body, some w.fresh⟩, exp, some (.pending w.fresh), w.now⟩
      fresh := w.fresh + 1
      outbox := some e })

/-! ## The outbox -/

/-- `WHERE token = $3`. -/
def dropToken (token : Nat) : Option Entry := w.outbox.filter fun e => e.token != token

/-- The write-back row carries the pending token. -/
def pendingIs (token : Nat) : Bool := w.wb.any fun r => versionOf r == .pending token

/-- `store/cache.go:1078-1105`. -/
def markOriginCommitted (token : Nat) (version : Text) (exp : Nat) : Bool × World :=
  (pendingIs w token, { w with
      wb := w.wb.map fun r =>
        if versionOf r = .pending token then
          { r with originETag := some (.live version), createdAt := w.now, expiresAt := some exp } else r
      outbox := dropToken w token })

/-- `store/cache.go:1107-1134`. -/
def abandonPendingUpload (token : Nat) : World :=
  { w with wb := w.wb.filter fun r => versionOf r != .pending token, outbox := dropToken w token }

/-- `work.Backoff` with 2 s, factor 2 and at most 300 s. -/
def backoff (attempt : Nat) : Nat := min (2000 * 2 ^ attempt) (300 * 1000)

/-- `store/cache.go:1144-1160`. -/
def failPending (token owner attempt : Nat) (permanent : Bool) : World :=
  { w with
    outbox := w.outbox.map fun e =>
      if e.token = token ∧ e.leaseOwner = some owner then
        { e with attempts := e.attempts + 1, dead := permanent, leaseOwner := none, leaseUntil := none,
                 nextAttempt := w.now + backoff attempt } else e }

/-- `store/cache.go:1173-1177`. -/
def clearPendingUploads : World := { w with outbox := none }

/-- `store/cache.go:1186-1191`. -/
def clearPendingUploadToken (token : Nat) : World := { w with outbox := dropToken w token }

/-- The entry is due and nobody's. -/
def Entry.due (e : Entry) : Bool := e.nextAttempt ≤ w.now && !e.dead && e.leaseUntil.all (· ≤ w.now)

/-- `store/cache.go:1050-1076`. -/
def claimPendingUploads (owner : Nat) : Option Entry × World :=
  match w.outbox with
  | some e =>
    if e.due w then
      let e' := { e with leaseOwner := some owner, leaseUntil := some (w.now + 5 * minute) }
      (some e', { w with outbox := some e' })
    else (none, w)
  | none => (none, w)

theorem claimPendingUploads_eq_some {owner : Nat} {p : Entry} (h : (claimPendingUploads w owner).1 = some p) :
    ∃ e, w.outbox = some e ∧ p.token = e.token ∧ p.baseETag = e.baseETag ∧ p.baseMissing = e.baseMissing := by
  simp only [claimPendingUploads] at h
  split at h
  · next e he =>
    split at h
    · cases h
      exact ⟨e, he, rfl, rfl, rfl⟩
    · cases h
  · cases h

/-! ## Rows -/

/-- The row is the one observed: version, etag, creation time and file. -/
def sameRow (r observed : Row) : Bool :=
  versionOf r == versionOf observed && r.etag == observed.etag && r.createdAt == observed.createdAt &&
    r.body.file.getD 0 == observed.body.file.getD 0

/-- `RetireOriginObject` of a live version: the write-back row goes, and the read-cache row, the
fill lease and the metadata (`store/cache.go:1297-1356`). -/
def retireOriginObject (observed : Row) : Bool × World :=
  if (versionOf observed).isLive ∧ w.wb.any (sameRow · observed) then
    (true, { w with wb := none, rc := none, lease := none, ometa := none })
  else (false, w)

/-- `DeleteExpected` of the read-cache row (`store/cache.go:464-491`). -/
def deleteExpected (v : CacheVersion) : World := { w with rc := w.rc.filter fun r => r.originETag != some v }

/-- `Store.Delete` of the read-cache row. -/
def deleteCacheRow : World := { w with rc := none }

/-- `store.go:1072-1085`. -/
def touchNamespaceObject (side : Side) (retention : Nat) : World :=
  w.setRow side ((w.row side).map fun r =>
    { r with createdAt := w.now, expiresAt := if 0 < retention then some (w.now + retention) else r.expiresAt })

/-! ## Fill leases, origin metadata, range chunks -/

/-- `store/cache.go:1205-1219`. -/
def acquireFillLease : Option Nat × World :=
  if w.lease.all (·.expiresAt ≤ w.now) then
    (some w.fresh, { w with lease := some ⟨w.fresh, w.now + fillLeaseTTL⟩, fresh := w.fresh + 1 })
  else (none, w)

/-- `store/cache.go:1221-1225`. -/
def releaseFillLease (owner : Nat) : World := { w with lease := w.lease.filter (·.owner != owner) }

/-- Remembered while the read cache has no live row, and not past `ttl` after the validation
(`store/cache.go:1263-1287`). -/
def rememberOriginMetadata (info : Info) (validated ttl : Nat) : World :=
  if w.now < validated + ttl ∧ liveOld w.rc w.now = false then
    { w with ometa := some ⟨info, validated, validated + ttl⟩ }
  else w

/-- `store/cache.go:1289-1295`. -/
def forgetOriginMetadata (version : Text) : World :=
  { w with ometa := w.ometa.filter fun m => m.info.originETag != version }

def putChunk (version : Text) (body : Body) : World := { w with chunks := (version, body) :: w.chunks }

end Updates

/-! ## Statements -/

/-- The transactions of the store. -/
inductive Update where
  | publish (side : Side) (k : PubKind) (etag : Text) (body : Body) (exp : Option Nat)
  | complete (etag : Text) (body : Body) (exp : Option Nat) (baseETag : Text) (baseMissing : Bool)
      (owner : Option Nat)
  | markCommitted (token : Nat) (version : Text) (exp : Nat)
  | abandon (token : Nat)
  | failPending (token owner attempt : Nat) (permanent : Bool)
  | clearPending
  | clearToken (token : Nat)
  | claim (owner : Nat)
  | retire (observed : Row)
  | deleteExpected (v : CacheVersion)
  | deleteCacheRow
  | touch (side : Side) (retention : Nat)
  | acquireLease
  | releaseLease (owner : Nat)
  | remember (info : Info) (validated ttl : Nat)
  | forget (version : Text)
  | putChunk (version : Text) (body : Body)

abbrev Update.Ans : Update → Type
  | publish _ _ _ _ _ => Option Row
  | complete _ _ _ _ _ _ => Entry
  | markCommitted _ _ _ | retire _ => Bool
  | claim _ => Option Entry
  | acquireLease => Option Nat
  | _ => Unit

def Update.apply (w : World) : (u : Update) → u.Ans × World
  | .publish side k etag body exp => Tier.publish w side k etag body exp
  | .complete etag body exp base missing owner => completeUploadPending w etag body exp base missing owner
  | .markCommitted token version exp => markOriginCommitted w token version exp
  | .abandon token => ((), abandonPendingUpload w token)
  | .failPending token owner attempt permanent => ((), Tier.failPending w token owner attempt permanent)
  | .clearPending => ((), clearPendingUploads w)
  | .clearToken token => ((), clearPendingUploadToken w token)
  | .claim owner => claimPendingUploads w owner
  | .retire observed => retireOriginObject w observed
  | .deleteExpected v => ((), Tier.deleteExpected w v)
  | .deleteCacheRow => ((), Tier.deleteCacheRow w)
  | .touch side retention => ((), touchNamespaceObject w side retention)
  | .acquireLease => acquireFillLease w
  | .releaseLease owner => ((), releaseFillLease w owner)
  | .remember info validated ttl => ((), rememberOriginMetadata w info validated ttl)
  | .forget version => ((), forgetOriginMetadata w version)
  | .putChunk version body => ((), Tier.putChunk w version body)

/-- The updates that take the write-back key's advisory lock, unless the caller holds it as a
session lock (`p_skip_lock`). -/
def Update.locksKey : Update → Bool
  | .publish .write _ _ _ _ | .retire _ => true
  | _ => false

inductive Uploaded where
  | ok (version : Text)
  | precondition
  | unsupported
  | failed
deriving DecidableEq, Repr

structure Rows where
  now : Nat
  wb : Option Row
  rc : Option Row
deriving DecidableEq, Repr

inductive Stmt where
  | clock
  | lockKey (gateway : Nat)
  | unlockKey (gateway : Nat)
  /-- `pg_advisory_lock` of the write-back key; the answer says whether it was taken. -/
  | lockSession
  | unlockSession
  /-- `Cache.Metadata`, `Store.Meta`: the rows of both namespaces. -/
  | rows
  | originMeta
  | chunk (version : Text)
  /-- `GetBodyFromMeta`: the row read before is still live, and its bytes can be read. -/
  | stillLive (r : Row)
  /-- The renewal of the fill lease has cancelled the fetch. -/
  | cancelled
  | db (u : Update)
  /-- An update whose error the caller drops. -/
  | attempt (u : Update)
  /-- `Attributes`, `GetWithAttrs`, `GetRange`. -/
  | originRead
  | originUpload (body : Body) (pre : Precondition) (conditional : Bool)
  | originDelete
  | join (k : FlightKey)
  | finish (k : FlightKey) (r : Fetched)
  | wait

abbrev Stmt.Ans : Stmt → Type
  | clock => Nat
  | lockKey _ | unlockKey _ | unlockSession | finish _ _ => Unit
  | lockSession | cancelled | join _ => Bool
  | rows => Option Rows
  | originMeta => Option (Option OriginMeta × Nat)
  | chunk _ => Option (Option Body)
  | stillLive _ => Option Bool
  | db u | attempt u => Option u.Ans
  | originRead => Fetched
  | originUpload _ _ _ => Uploaded
  | originDelete => Bool
  | wait => Fetched

def free (l : Option Nat) (t : Nat) : Bool := l.all (· == t)

theorem holder_of_free {l : Option Nat} {v : Nat} (h : free l t = true) (hl : l = some v) : v = t := by
  simpa [free, hl] using h

/-- An update of request `t`, or its failure. -/
def execUpdate (t : Nat) (u : Update) (w : World) : List (Option u.Ans × World) :=
  (if u.locksKey → free w.session t then [(some (u.apply w).1, (u.apply w).2)] else []) ++ [(none, w)]

def World.originAns (w : World) : Fetched :=
  match w.origin with
  | some o => .found o
  | none => .missing

def World.upload (N : Naming) (w : World) (body : Body) : World :=
  { w with origin := some ⟨body, N.version body w.fresh⟩, fresh := w.fresh + 1 }

/-- The precondition of an upload, as the origin judges it. -/
def World.originAllows (w : World) (pre : Precondition) : Bool :=
  pre.allows w.origin.isSome ((w.origin.map (·.version)).getD [])

/-- A request enters a flight: it leads a new one or waits for the one under way. -/
def World.enter (w : World) (t : Nat) (k : FlightKey) : Bool × World :=
  match w.flights k with
  | none => (true, { w with flights := fun k' => if k' = k then some ⟨t, []⟩ else w.flights k' })
  | some f =>
    (false, { w with flights := fun k' => if k' = k then some { f with waiters := t :: f.waiters } else w.flights k' })

/-- The flight ends, and its waiters get the result. -/
def World.land (w : World) (k : FlightKey) (r : Fetched) : World :=
  match w.flights k with
  | none => w
  | some f =>
    { w with
      flights := fun k' => if k' = k then none else w.flights k'
      inbox := fun t => if t ∈ f.waiters then some r else w.inbox t }

/-- A waiter leaves with its result, or gives up. -/
def World.leave (w : World) (t : Nat) : World :=
  { w with
    flights := fun k => (w.flights k).map fun f => { f with waiters := f.waiters.filter (· != t) }
    inbox := fun u => if u = t then none else w.inbox u }

def exec (N : Naming) (t : Nat) : (s : Stmt) → World → List (s.Ans × World)
  | .clock, w => [(w.now, w)]
  | .lockKey g, w =>
    if w.keyLock g = none then [((), { w with keyLock := upd w.keyLock g (some t) })] else []
  | .unlockKey g, w => [((), if w.keyLock g = some t then { w with keyLock := upd w.keyLock g none } else w)]
  | .lockSession, w =>
    (if w.session = none then [(true, { w with session := some t })] else []) ++ [(false, w)]
  | .unlockSession, w => [((), if w.session = some t then { w with session := none } else w)]
  | .rows, w => [(some ⟨w.now, w.wb, w.rc⟩, w), (none, w)]
  | .originMeta, w => [(some (w.ometa, w.now), w), (none, w)]
  | .chunk v, w => [(some ((w.chunks.find? (·.1 == v)).map (·.2)), w), (none, w)]
  | .stillLive r, w => [(some (r.live w.now), w), (none, w)]
  | .cancelled, w => [(false, w), (true, w)]
  | .db u, w | .attempt u, w => execUpdate t u w
  | .originRead, w => [(w.originAns, w), (.failed, w)]
  | .originUpload body pre conditional, w =>
    if pre ≠ .none ∧ !conditional then [(.unsupported, w)]
    else if w.originAllows pre then
      [(.ok (N.version body w.fresh), w.upload N body), (.failed, w), (.failed, w.upload N body)] ++
        -- Sent again, the upload is refused for the object that its first attempt has written.
        if N.resends ∧ !(w.upload N body).originAllows pre then [(.precondition, w.upload N body)] else []
    else [(.precondition, w), (.failed, w)]
  | .originDelete, w => [(true, { w with origin := none }), (false, w), (false, { w with origin := none })]
  | .join k, w => [w.enter t k]
  | .finish k r, w => [((), w.land k r)]
  | .wait, w =>
    (match w.inbox t with
    | some r => [(r, w.leave t)]
    | none => []) ++ [(.failed, w.leave t)]

variable {w w' : World} {s : Stmt}

/-- An update fails without effect, or is applied; where it needs the key's lock, nobody else has
it. -/
theorem execUpdate_cases {u : Update} {r : Option u.Ans} (h : (r, w') ∈ execUpdate t u w) : (r = none ∧ w' = w) ∨
      (r = some (u.apply w).1 ∧ w' = (u.apply w).2 ∧ (u.locksKey = true → free w.session t = true)) := by
  rcases mem_append.1 h with hm | hm
  · split at hm
    · next hf =>
      cases mem_singleton.1 hm
      exact .inr ⟨rfl, rfl, hf⟩
    · cases hm
  · cases mem_singleton.1 hm
    exact .inl ⟨rfl, rfl⟩

def Stmt.isUpdate : Stmt → Bool
  | .db _ | .attempt _ => true
  | _ => false

/-- Statements that neither write at the origin nor enter or leave a flight. -/
def Stmt.beside : Stmt → Bool
  | .originUpload _ _ _ | .originDelete | .join _ | .finish _ _ | .wait => false
  | _ => true

theorem mem_lockSession_cases {r : Bool} (h : (r, w') ∈ exec N t .lockSession w) :
    (r = true ∧ w.session = none ∧ w' = { w with session := some t }) ∨ (r = false ∧ w' = w) := by
  rcases mem_append.1 h with h | h
  · split at h
    · next hn =>
      cases mem_singleton.1 h
      exact .inl ⟨rfl, hn, rfl⟩
    · cases h
  · cases mem_singleton.1 h
    exact .inr ⟨rfl, rfl⟩

theorem exec_locks {r : s.Ans} (hu : s.isUpdate = false) (hb : s.beside = true)
    (h : (r, w') ∈ exec N t s w) : ∃ session keyLock, w' = { w with session := session, keyLock := keyLock } := by
  cases s with
  | lockKey g =>
    simp only [exec] at h
    split at h
    · cases mem_singleton.1 h
      exact ⟨_, _, rfl⟩
    · cases h
  | unlockKey | unlockSession =>
    cases mem_singleton.1 h
    split <;> exact ⟨_, _, rfl⟩
  | lockSession => rcases mem_lockSession_cases h with ⟨_, _, rfl⟩ | ⟨_, rfl⟩ <;> exact ⟨_, _, rfl⟩
  | clock =>
    cases mem_singleton.1 h
    exact ⟨_, _, rfl⟩
  | rows | originMeta | chunk | stillLive | cancelled | originRead =>
    simp only [exec, mem_cons, not_mem_nil, or_false] at h
    rcases h with h | h <;> cases h <;> exact ⟨_, _, rfl⟩
  | db | attempt => cases hu
  | _ => cases hb

theorem mem_wait_cases {r : Fetched} (h : (r, w') ∈ exec N t .wait w) : w' = w.leave t ∧ (w.inbox t = some r ∨ r = .failed) := by
  rcases mem_append.1 h with h | h
  · split at h
    · next hr =>
      cases mem_singleton.1 h
      exact ⟨rfl, .inl hr⟩
    · cases h
  · cases mem_singleton.1 h
    exact ⟨rfl, .inr rfl⟩

theorem mem_originUpload_cases {body : Body} {pre : Precondition}
    {conditional : Bool} {r : Uploaded} (h : (r, w') ∈ exec N t (.originUpload body pre conditional) w) :
    w' = w.upload N body ∨ (w' = w ∧ ∀ v, r ≠ .ok v) := by
  simp only [exec] at h
  split at h
  · cases mem_singleton.1 h
    exact .inr ⟨rfl, nofun⟩
  · split at h
    · rcases mem_append.1 h with h | h
      · simp only [mem_cons, not_mem_nil, or_false] at h
        rcases h with h | h | h <;> cases h
        · exact .inl rfl
        · exact .inr ⟨rfl, nofun⟩
        · exact .inl rfl
      · split at h <;> cases h
        · exact .inl rfl
        · contradiction
    · simp only [mem_cons, not_mem_nil, or_false] at h
      rcases h with h | h <;> cases h <;> exact .inr ⟨rfl, nofun⟩

/-- The part of the world that only updates change. -/
structure SameStore (w w' : World) : Prop where
  now : w'.now = w.now
  wb : w'.wb = w.wb
  rc : w'.rc = w.rc
  outbox : w'.outbox = w.outbox
  lease : w'.lease = w.lease
  ometa : w'.ometa = w.ometa
  fresh : w.fresh ≤ w'.fresh

theorem SameStore.refl (w : World) : SameStore w w := ⟨rfl, rfl, rfl, rfl, rfl, rfl, le_rfl⟩

theorem exec_sameStore {r : s.Ans} (hs : s.isUpdate = false) (h : (r, w') ∈ exec N t s w) : SameStore w w' := by
  cases s with
  | db | attempt => cases hs
  | originUpload body pre conditional =>
    rcases mem_originUpload_cases h with rfl | ⟨rfl, -⟩
    · exact ⟨rfl, rfl, rfl, rfl, rfl, rfl, Nat.le_succ _⟩
    · exact .refl _
  | originDelete =>
    simp only [exec, mem_cons, not_mem_nil, or_false] at h
    rcases h with h | h | h <;> cases h <;> exact ⟨rfl, rfl, rfl, rfl, rfl, rfl, le_rfl⟩
  | join k =>
    have h' : (r, w') = w.enter t k := mem_singleton.1 h
    have hw : w' = (w.enter t k).2 := congrArg Prod.snd h'
    rw [hw, World.enter]
    split <;> exact ⟨rfl, rfl, rfl, rfl, rfl, rfl, le_rfl⟩
  | finish k r' =>
    cases mem_singleton.1 h
    rw [World.land]
    split <;> exact ⟨rfl, rfl, rfl, rfl, rfl, rfl, le_rfl⟩
  | wait =>
    obtain ⟨rfl, -⟩ := mem_wait_cases h
    exact ⟨rfl, rfl, rfl, rfl, rfl, rfl, le_rfl⟩
  | _ =>
    obtain ⟨_, _, rfl⟩ := exec_locks rfl rfl h
    exact ⟨rfl, rfl, rfl, rfl, rfl, rfl, le_rfl⟩

/-- The part of the world that only the origin, the flights and the clock change; and no number is
drawn twice. -/
structure Beside (w w' : World) : Prop where
  now : w'.now = w.now
  origin : w'.origin = w.origin
  flights : w'.flights = w.flights
  inbox : w'.inbox = w.inbox
  fresh : w.fresh ≤ w'.fresh

theorem Beside.refl (w : World) : Beside w w := ⟨rfl, rfl, rfl, rfl, le_rfl⟩

theorem Update.beside (w : World) (u : Update) : Beside w (u.apply w).2 := by
  cases u with
  | publish side k etag body exp =>
    simp only [apply, Tier.publish]
    split
    · exact .refl w
    · cases side <;> exact ⟨rfl, rfl, rfl, rfl, Nat.le_succ _⟩
  | complete => exact ⟨rfl, rfl, rfl, rfl, Nat.le_succ _⟩
  | claim owner =>
    simp only [apply, claimPendingUploads]
    split
    · split <;> exact ⟨rfl, rfl, rfl, rfl, le_rfl⟩
    · exact .refl w
  | retire observed =>
    simp only [apply, retireOriginObject]
    split <;> exact ⟨rfl, rfl, rfl, rfl, le_rfl⟩
  | touch side retention => cases side <;> exact ⟨rfl, rfl, rfl, rfl, le_rfl⟩
  | acquireLease =>
    simp only [apply, acquireFillLease]
    split
    · exact ⟨rfl, rfl, rfl, rfl, Nat.le_succ _⟩
    · exact .refl w
  | remember info validated ttl =>
    simp only [apply, rememberOriginMetadata]
    split <;> exact ⟨rfl, rfl, rfl, rfl, le_rfl⟩
  | _ => exact ⟨rfl, rfl, rfl, rfl, le_rfl⟩

theorem exec_beside {r : s.Ans} (hs : s.beside = true) (h : (r, w') ∈ exec N t s w) : Beside w w' := by
  have hupd : ∀ {u : Update} {r : Option u.Ans}, (r, w') ∈ execUpdate t u w → Beside w w' := by
    intro u r hx
    rcases execUpdate_cases hx with ⟨_, rfl⟩ | ⟨_, rfl, _⟩
    · exact .refl _
    · exact u.beside w
  cases s with
  | db | attempt => exact hupd h
  | originUpload | originDelete | join | finish | wait => cases hs
  | _ =>
    obtain ⟨_, _, rfl⟩ := exec_locks rfl rfl h
    exact ⟨rfl, rfl, rfl, rfl, le_rfl⟩

/-! ## The environment -/

/-- What happens with no request on the key: time, sweeps, lease renewal, operators, and other
clients of the origin. -/
inductive Ev where
  | tick (d : Nat)
  | expire (side : Side)
  | expireMeta
  | evict (side : Side) (others : List EvictRow) (maxBytes limit : Nat)
  | renewLease
  | cleanupLeases
  | retryDead
  | originPut (o : OriginObj)
  | originGone

/-- `expire_objects` reaches the key: the row goes if its expiry has passed
(`store.go:1717-1728`). -/
def expireObjects (w : World) (side : Side) : World := w.setRow side ((w.row side).filter (·.live w.now))

def evictRow (N : Naming) (r : Row) : Option EvictRow :=
  r.expiresAt.map fun e => ⟨N.key, r.body.body.size, e, r.createdAt⟩

/-- One eviction over the key's row and the `others` of its namespace. -/
def evict (N : Naming) (w : World) (side : Side) (others : List EvictRow) (maxBytes limit : Nat) : World :=
  match (w.row side).bind (evictRow N) with
  | none => w
  | some e =>
    if N.key ∈ evictCacheOverBudget (e :: others) maxBytes limit then w.setRow side none else w

def env (N : Naming) : Ev → World → Option World
  | .tick d, w => some { w with now := w.now + d }
  | .expire side, w => some (expireObjects w side)
  | .expireMeta, w => some { w with ometa := w.ometa.filter fun m => w.now < m.expiresAt }
  | .evict side others maxBytes limit, w => some (evict N w side others maxBytes limit)
  | .renewLease, w =>
    some { w with lease := w.lease.map fun l =>
      if w.now < l.expiresAt then { l with expiresAt := w.now + fillLeaseTTL } else l }
  | .cleanupLeases, w => some { w with lease := w.lease.filter fun l => w.now < l.expiresAt }
  | .retryDead, w =>
    some { w with outbox := w.outbox.map fun e =>
      if e.dead then
        { e with dead := false, attempts := 0, leaseOwner := none, leaseUntil := none, nextAttempt := w.now } else e }
  | .originPut o, w => some { w with origin := some o }
  | .originGone, w => some { w with origin := none }

def Ev.sweeps : Ev → Side → Bool
  | .expire side, side' | .evict side _ _ _, side' => side == side'
  | _, _ => false

variable {e : Ev}

theorem evict_eq_setRow (N : Naming) (w : World) (side : Side) (others : List EvictRow) (maxBytes limit : Nat) :
    ∃ r, evict N w side others maxBytes limit = w.setRow side r := by
  have hrow : w = w.setRow side (w.row side) := by cases side <;> rfl
  unfold evict
  split
  · exact ⟨_, hrow⟩
  · split
    · exact ⟨none, rfl⟩
    · exact ⟨_, hrow⟩

/-- The environment draws no number, takes no lock and joins no flight. -/
structure EnvKeeps (w w' : World) : Prop where
  fresh : w'.fresh = w.fresh
  session : w'.session = w.session
  keyLock : w'.keyLock = w.keyLock
  flights : w'.flights = w.flights
  inbox : w'.inbox = w.inbox
  chunks : w'.chunks = w.chunks

theorem env_keeps (he : env N e w = some w') : EnvKeeps w w' := by
  cases e with
  | expire side => cases he; cases side <;> exact ⟨rfl, rfl, rfl, rfl, rfl, rfl⟩
  | evict side others maxBytes limit =>
    obtain ⟨r, hr⟩ := evict_eq_setRow N w side others maxBytes limit
    cases he
    rw [hr]
    cases side <;> exact ⟨rfl, rfl, rfl, rfl, rfl, rfl⟩
  | _ => cases he; exact ⟨rfl, rfl, rfl, rfl, rfl, rfl⟩

/-- Only clients of the origin change the origin, and remembered metadata only goes. -/
theorem env_origin (he : env N e w = some w') :
    ((∀ o, e ≠ .originPut o) → w'.origin = w.origin ∨ w'.origin = none) ∧ (w.ometa = none → w'.ometa = none) := by
  cases e with
  | expire side => cases he; cases side <;> exact ⟨fun _ => .inl rfl, id⟩
  | evict side others maxBytes limit =>
    obtain ⟨r, hr⟩ := evict_eq_setRow N w side others maxBytes limit
    cases he
    rw [hr]
    cases side <;> exact ⟨fun _ => .inl rfl, id⟩
  | expireMeta => cases he; exact ⟨fun _ => .inl rfl, fun hm => by simp [hm]⟩
  | originPut o => exact ⟨fun ho => absurd rfl (ho o), fun hm => by cases he; exact hm⟩
  | originGone => cases he; exact ⟨fun _ => .inr rfl, id⟩
  | _ => cases he; exact ⟨fun _ => .inl rfl, id⟩

theorem env_origin_isSome (he : env N e w = some w') (hg : e ≠ .originGone) (ho : w.origin.isSome = true) : w'.origin.isSome = true := by
  cases e with
  | expire side => cases he; cases side <;> exact ho
  | evict side others maxBytes limit =>
    obtain ⟨r, hr⟩ := evict_eq_setRow N w side others maxBytes limit
    cases he
    rw [hr]
    cases side <;> exact ho
  | originGone => exact absurd rfl hg
  | originPut o => cases he; rfl
  | _ => cases he; exact ho

theorem live_of_no_expiry (h : r.expiresAt = none) (now : Nat) : r.live now = true := by
  simp [ObjectRow.live, h]

/-- A sweep takes a row out only if the row has an expiry. -/
theorem env_row (he : env N e w = some w') (side : Side) : w'.row side = w.row side ∨
      (e.sweeps side = true ∧ w'.row side = none ∧ ∀ r, w.row side = some r → r.expiresAt ≠ none) := by
  cases e with
  | expire s =>
    cases he
    by_cases hs : s = side
    · subst hs
      have hrow : (expireObjects w s).row s = (w.row s).filter (·.live w.now) := by cases s <;> rfl
      rw [hrow]
      cases hr : w.row s with
      | none => exact .inl rfl
      | some r =>
        cases hl : r.live w.now with
        | true => exact .inl (by simp [hl])
        | false =>
          refine .inr ⟨by simp [Ev.sweeps], by simp [hl], ?_⟩
          rintro r' ⟨⟩ hx
          cases hl.symm.trans (live_of_no_expiry hx w.now)
    · left
      cases s <;> cases side <;> first | rfl | exact absurd rfl hs
  | evict s others maxBytes limit =>
    cases he
    simp only [evict]
    split
    · exact .inl rfl
    · next x hx =>
      split
      · by_cases hs : s = side
        · subst hs
          refine .inr ⟨by simp [Ev.sweeps], by cases s <;> rfl, fun r hr hn => ?_⟩
          simp [hr, evictRow, hn] at hx
        · left
          cases s <;> cases side <;> first | rfl | exact absurd rfl hs
      · exact .inl rfl
  | _ => cases he; cases side <;> exact .inl rfl

/-- The environment changes neither the token nor the base of an outbox entry. -/
theorem env_outbox (he : env N e w = some w') : ∃ f : Entry → Entry, w'.outbox = w.outbox.map f ∧
      ∀ x, (f x).token = x.token ∧ (f x).baseETag = x.baseETag ∧ (f x).baseMissing = x.baseMissing := by
  cases e with
  | retryDead =>
    cases he
    refine ⟨_, rfl, fun x => ?_⟩
    split <;> exact ⟨rfl, rfl, rfl⟩
  | expire side =>
    cases he
    exact ⟨id, by cases side <;> simp [expireObjects, World.setRow], fun _ => ⟨rfl, rfl, rfl⟩⟩
  | evict side others maxBytes limit =>
    cases he
    refine ⟨id, ?_, fun _ => ⟨rfl, rfl, rfl⟩⟩
    simp only [evict, Option.map_id, id]
    split
    · rfl
    · split
      · cases side <;> rfl
      · rfl
  | _ => cases he; exact ⟨id, by simp, fun _ => ⟨rfl, rfl, rfl⟩⟩

end Pgvs3.Tier
