import Pgvs3.Tier.Reported
/-!
# Conditional writes and the visible object

A conditional PUT or CompleteUpload looks at the row that a reader sees only to refuse
`If-None-Match: *`, and to replace an `If-Match` of that row's own ETag by its origin version
(`resolvePrecondition`, `objcache/cache.go:1346-1364`). The rest is left to the origin, which need
not have the object that Head reports: a pending body, a tombstone, a fresh row or remembered
metadata can hide it. `Agrees` says when it has not.
-/

namespace Pgvs3.Tier

open Conc Sys List Option Tier

namespace Conditional

variable {N : Naming} {g : Gateway} {t : Nat} {w w' w₁ : World} {r : Row}

/-! ## Writes -/

/-- The world under `lockWrite` of request `t` at gateway `g`. -/
def lockedBy (w : World) (t g : Nat) : World :=
  { w with keyLock := upd w.keyLock g (some t), session := some t }

variable {pre p : Precondition} {body : Body} {exp : Nat} {etag : Text} {res : Res}

theorem restore (hw : Idle w) (i : Nat) : upd (upd w.keyLock i (some t)) i none = w.keyLock := by
  funext j
  by_cases hj : j = i <;> simp [upd, hj, hw.keyLock]

theorem withLockWrite_cases {q : Req Res} (hw : Idle w)
    (hm : (res, w') ∈ outcomes N t (withLockWrite g q) w) :
    res = .failed ∨ ∃ v, (res, v) ∈ outcomes N t q (lockedBy w t g.id) ∧
      (v = lockedBy w t g.id → w' = w) := by
  have hk : w.keyLock g.id = none := by rw [hw.keyLock]
  simp [withLockWrite, lockWrite, @mem_ask N, exec, hk, hw.session, or_and_right, exists_or] at hm
  rcases hm with ⟨v, hv, hm⟩ | ⟨rfl, -⟩
  · refine .inr ⟨v, hv, ?_⟩
    rintro rfl
    simp [releaseWrite, @mem_ask N, exec, lockedBy, restore hw] at hm
    rw [hm, ← hw.session]
  · exact .inl rfl

/-- The origin accepts the condition as it is forwarded. -/
def Consents (w : World) (pre : Precondition) : Prop :=
  ∃ p, resolveWith (rows w).current pre = .ok p ∧ w.originAllows p = true

/-- What a critical section may end with: a success with the origin's consent, and a refusal that
has changed nothing, unless an upload was sent again. -/
def Ends (N : Naming) (w : World) (pre : Precondition) (res : Res) (w' : World) : Prop :=
  (∀ etag, res = .written etag → Consents w pre) ∧
    (N.resends = false → StrongOrigin w → res = .precondition → w' = w)

theorem uploadThrough_ends (hp : p ≠ .none)
    (hm : (res, w') ∈ outcomes N t (uploadThrough N g body p) w) :
    (∀ etag, res = .written etag → w.originAllows p = true) ∧
      (N.resends = false → res = .precondition → w' = w) := by
  cases hc : g.conditional
  · simp [uploadThrough, @mem_ask N, exec, hp, hc] at hm
    simp [hm]
  · cases ha : w.originAllows p
    · simp [uploadThrough, @mem_ask N, exec, hp, hc, ha, or_and_right, exists_or] at hm
      rcases hm with ⟨rfl, rfl⟩ | ⟨rfl, rfl⟩ <;> simp
    · refine ⟨fun _ _ => rfl, ?_⟩
      rintro hr rfl
      simp [uploadThrough, @mem_ask N, exec, hp, hc, ha, hr, or_and_right, exists_or] at hm
      obtain ⟨m, _, -, -, _, -, _, _, -, hm⟩ := hm
      split at hm <;> cases (mem_ret.1 hm).1

theorem mem_resolvePrecondition (hp : pre ≠ .none) {e : Except Res Precondition} :
    (e, w') ∈ outcomes N t (resolvePrecondition pre) w ↔
      (e = resolveWith (rows w).current pre ∨ e = .error .failed) ∧ w' = w := by
  simp [resolvePrecondition, @mem_ask N, exec, hp, or_and_right, exists_or, rows]

/-- `If-None-Match: *` or `If-Match`. -/
def Named (pre : Precondition) : Prop := pre = .ifAbsent ∨ ∃ e, pre = .ifMatch e

theorem Named.ne_none (hp : Named pre) : pre ≠ .none := by
  rcases hp with rfl | ⟨e, rfl⟩ <;> simp

theorem resolved_ifMatch {cur : Option Row} {e : Text} (h : resolveWith cur (.ifMatch e) = .ok p) :
    ∃ e', p = .ifMatch e' := by
  cases cur with
  | none => exact ⟨e, by simpa [resolveWith] using h.symm⟩
  | some m =>
    simp only [resolveWith, resolveIfMatch] at h
    split at h
    · split at h <;> cases h <;> exact ⟨_, rfl⟩
    · cases h
      exact ⟨e, rfl⟩

theorem Named.resolved {cur : Option Row} (hp : Named pre) (h : resolveWith cur pre = .ok p) :
    Named p := by
  rcases hp with rfl | ⟨e, rfl⟩
  · cases cur <;> cases h
    exact .inl rfl
  · exact .inr (resolved_ifMatch h)

theorem resolve_ends {f : Precondition → Req Res} (hp : Named pre)
    (hf : ∀ p, resolveWith (rows w).current pre = .ok p → (res, w') ∈ outcomes N t (f p) w →
    Ends N w pre res w')
    (hm : (res, w') ∈ outcomes N t (do
      match ← resolvePrecondition pre with
      | .error e => return e
      | .ok p => f p) w) : Ends N w pre res w' := by
  simp [mem_resolvePrecondition hp.ne_none, or_and_right, exists_or] at hm
  rcases hm with hm | ⟨rfl, rfl⟩
  · cases he : resolveWith (rows w).current pre with
    | error e =>
      obtain ⟨rfl, rfl⟩ := mem_ret.1 (by simpa only [he] using hm)
      rcases resolveWith_error he with rfl | rfl <;> simp [Ends]
    | ok p => exact hf p he (by simpa only [he] using hm)
  · simp [Ends]

theorem uploadLocked_ends (hp : Named pre)
    (hm : (res, w') ∈ outcomes N t (uploadLocked N g body pre) w) : Ends N w pre res w' := by
  refine resolve_ends hp (fun p he hm => ?_) hm
  have hne := (hp.resolved he).ne_none
  simp only [hne, and_false, if_false] at hm
  obtain ⟨hwritten, hrefused⟩ := uploadThrough_ends hne hm
  exact ⟨fun etag hr => ⟨p, he, hwritten etag hr⟩, fun hr _ => hrefused hr⟩

/-- The flush of a pending row that the origin accepts is not refused. -/
theorem flush_ends {e : Entry} {owner : Nat} (hwb : liveRow w.wb w.now = some r)
    (hv : versionOf r = .pending e.token) (ha : w.originAllows (flushCondition e) = true)
    (hr : N.resends = false) (hm : (res, w') ∈ outcomes N t (flushOneNoLock g e owner) w) :
    res ≠ .precondition ∧ res ≠ .skipped := by
  have howned : pendingIs (w.upload N r.body.body) e.token = true := by
    simp [pendingIs, World.upload, (filter_eq_some_iff.1 hwb).1, hv]
  by_cases hc : ¬ flushCondition e = .none ∧ g.conditional = false
  · simp [flushOneNoLock, @mem_ask N, exec, hwb, hv, hc, or_and_right, exists_or] at hm
    rcases hm with ⟨-, rfl⟩ | ⟨rfl, -⟩ <;> simp
  · simp [flushOneNoLock, @mem_ask N, exec, execUpdate, Update.locksKey, Update.apply,
      markOriginCommitted, howned, hwb, hv, hc, ha, hr, or_and_right, exists_or] at hm
    have hres : res = .flushed r.etag ∨ res = .failed := by tauto
    rcases hres with rfl | rfl <;> simp

theorem fence_keeps {u : Unit} (hm : (u, w') ∈ outcomes N t (fenceReadCache N) w) :
    w'.wb = w.wb ∧ w'.origin = w.origin ∧ w'.now = w.now := by
  simp [fenceReadCache, @mem_ask N, exec, execUpdate, or_and_right, exists_or] at hm
  rcases hm with ⟨-, rfl⟩ | rfl <;> simp [apply_fence]

theorem completeConditional_ends (hs : StrongOrigin w) (he : w.now < exp) (hr : N.resends = false) :
    (.precondition, w') ∉ outcomes N t (completeConditional N g body exp w.origin) w := by
  simp [completeConditional, @mem_ask N, exec, execUpdate, Update.locksKey, Update.apply,
    completeUploadPending, or_and_right, exists_or]
  rintro u v hfence res v' hflush
  obtain ⟨hwb, hor, hnow⟩ := fence_keeps hfence
  have hends := flush_ends
    (r := ⟨N.s3ETag body, ⟨body, some w.fresh⟩, some exp, some (.pending w.fresh), w.now⟩)
    (by simp [hwb, hnow, liveRow, Option.filter_some, ObjectRow.live, he]) rfl (by
      rw [World.originAllows, hor]
      cases ho : w.origin with
      | none => simp [newEntry, flushCondition, Precondition.allows]
      | some o =>
        simp [newEntry, flushCondition, Precondition.allows, (hs o ho).1, (hs o ho).2]) hr hflush
  cases res <;> simp at hends ⊢

theorem completeLocked_ends (hp : Named pre) (he : w.now < exp)
    (hm : (res, w') ∈ outcomes N t (completeLocked N g body pre exp) w) :
    Ends N w pre res w' := by
  have hchecked : (res, w') ∈ outcomes N t (completeChecked N g body pre exp w.origin) w ∨
      (res = .failed ∧ w' = w) := by
    cases ho : w.origin <;>
      simpa [completeLocked, @mem_ask N, exec, hp.ne_none, World.originAns, ho, or_and_right,
        exists_or] using hm
  rcases hchecked with hm | ⟨rfl, rfl⟩
  · refine resolve_ends hp (fun p hres hm => ?_) hm
    split at hm
    · next ha =>
      refine ⟨fun _ _ => ⟨p, hres, ha⟩, ?_⟩
      rintro hr hs rfl
      exact absurd hm (completeConditional_ends hs he hr)
    · obtain ⟨rfl, rfl⟩ := mem_ret.1 hm
      simp [Ends]
  · simp [Ends]

/-- The conditional writes of the tier. -/
def writes (N : Naming) (g : Gateway) (body : Body) (pre : Precondition) : List (Req Res) :=
  [uploadWithOptions N g body pre, completeUpload N g body pre]

theorem Ends.of_lock {q : Req Res} (hw : Idle w)
    (hm : (res, w') ∈ outcomes N t (withLockWrite g q) w) (hq : ∀ v, (res, v) ∈ outcomes N t q
    (lockedBy w t g.id) → Ends N (lockedBy w t g.id) pre res v) : Ends N w pre res w' := by
  rcases withLockWrite_cases hw hm with rfl | ⟨v, hv, hw'⟩
  · simp [Ends]
  · exact ⟨(hq v hv).1, fun hr hs h => hw' ((hq v hv).2 hr hs h)⟩

theorem writes_readOnly {q : Req Res} (hro : g.readOnly = true) (hq : q ∈ writes N g body pre)
    (hm : (res, w') ∈ outcomes N t q w) :
    res = .failed := by
  simp only [writes, mem_cons, not_mem_nil, or_false] at hq
  rcases hq with rfl | rfl <;> simp_all [uploadWithOptions, completeUpload, requireWrite]

theorem write_ends {q : Req Res} (hw : Idle w) (hp : Named pre) (hq : q ∈ writes N g body pre)
    (hm : (res, w') ∈ outcomes N t q w) :
    Ends N w pre res w' := by
  cases hro : g.readOnly with
  | true => simp [Ends, writes_readOnly hro hq hm]
  | false =>
    simp only [writes, mem_cons, not_mem_nil, or_false] at hq
    rcases hq with rfl | rfl
    · exact .of_lock hw (by simpa [uploadWithOptions, requireWrite, hro] using hm) fun _ =>
        uploadLocked_ends hp
    · simp [completeUpload, requireWrite, hro, @mem_ask N, exec] at hm
      have hpos : 0 < g.durableRetention :=
        lt_of_lt_of_le (by decide) (le_max_right g.retention originTombstoneTTL)
      exact .of_lock hw hm fun _ => completeLocked_ends hp (Nat.lt_add_of_pos_right hpos)

/-! ## The condition -/

def satisfied (pre : Precondition) (x : Option Text) : Bool := pre.allows x.isSome (x.getD [])

/-- `If-Match: e` accepts the ETag. -/
def accepts (e etag : Text) : Prop := Precondition.allows (.ifMatch e) true etag = true

/-- What hides the origin's object satisfies an `If-Match` that the origin accepts, and nothing
remembered hides that it has none. The ETag of a cached row stands for the row's origin version. -/
def Agrees (g : Gateway) (w : World) : Precondition → Prop
  | .ifAbsent => (rows w).lookup = none → w.origin = none → remembered g w = none
  | .ifMatch e => ∀ o ∈ w.origin,
    match (rows w).lookup with
    | none => accepts e o.version → ∀ info ∈ remembered g w, accepts e info.etag
    | some (side, r) =>
      match versionOf r with
      | .deleted _ => ¬ accepts e o.version
      | .pending _ => r.etag ≠ e → accepts e o.version → accepts e r.etag
      | .live v =>
        (if r.etag = e then v ≠ [] ∧ accepts v o.version else accepts e o.version) →
          accepts e (if freshRow g w r ∨ sameAsOrigin r o then responseETag side r else o.version)
  | _ => True

theorem ifAbsent_satisfied (hag : Agrees g w .ifAbsent) (ho : w.origin = none)
    (hcur : (rows w).current = none) : shown g w = none := by
  cases hl : (rows w).lookup with
  | none => simp [shown, hl, ho, hag hl ho]
  | some m =>
    obtain ⟨side, r⟩ := m
    cases hv : versionOf r <;> simp_all [shown, Rows.current, CacheVersion.isDeleted]

theorem ifMatch_satisfied {e : Text} {o : OriginObj} (hag : Agrees g w (.ifMatch e))
    (ho : w.origin = some o) (hres : resolveWith (rows w).current (.ifMatch e) = .ok p)
    (ha : p.allows true o.version = true) : ∃ etag, shown g w = some etag ∧ accepts e etag := by
  have hag := hag o ho
  cases hl : (rows w).lookup with
  | none =>
    simp only [hl] at hag
    simp [Rows.current, hl, resolveWith] at hres
    subst hres
    cases hr : remembered g w with
    | none => exact ⟨o.version, by simp [shown, hl, ho, hr], ha⟩
    | some info => exact ⟨info.etag, by simp [shown, hl, hr], hag ha info hr⟩
  | some m =>
    obtain ⟨side, r⟩ := m
    simp only [hl] at hag
    cases hv : versionOf r with
    | deleted d =>
      simp only [hv] at hag
      simp [Rows.current, hl, hv, CacheVersion.isDeleted, resolveWith] at hres
      subst hres
      exact absurd ha hag
    | pending k =>
      simp only [hv] at hag
      by_cases he : r.etag = e <;>
        simp [Rows.current, hl, hv, CacheVersion.isDeleted, resolveWith, resolveIfMatch, he] at hres
      subst hres
      refine ⟨r.etag, ?_, hag he ha⟩
      simp [shown, hl, hv, responseETag, CacheVersion.isPending]
    | live v =>
      simp only [hv] at hag
      have hshown : shown g w = some
          (if freshRow g w r ∨ sameAsOrigin r o then responseETag side r else o.version) := by
        cases hf : freshRow g w r <;> simp [shown, hl, hv, ho, hf]
      refine ⟨_, hshown, hag ?_⟩
      by_cases he : r.etag = e
      · rw [if_pos he]
        cases v <;>
          simp [Rows.current, hl, hv, CacheVersion.isDeleted, resolveWith,
            resolveIfMatch, he] at hres
        subst hres
        exact ⟨cons_ne_nil _ _, ha⟩
      · rw [if_neg he]
        simp [Rows.current, hl, hv, CacheVersion.isDeleted, resolveWith, resolveIfMatch, he] at hres
        subst hres
        exact ha

/-- A condition that the origin accepts holds of what Head would report. -/
theorem Consents.satisfied (hc : Consents w pre) (hp : Named pre) (hag : Agrees g w pre) :
    satisfied pre (shown g w) = true := by
  obtain ⟨p, hres, ha⟩ := hc
  rcases hp with rfl | ⟨e, rfl⟩
  · cases hcur : (rows w).current with
    | none =>
      simp [hcur, resolveWith] at hres
      subst hres
      rw [ifAbsent_satisfied hag (by simpa [World.originAllows, Precondition.allows] using ha) hcur]
      rfl
    | some r => simp [hcur, resolveWith] at hres
  · cases ho : w.origin with
    | none =>
      obtain ⟨e', rfl⟩ := resolved_ifMatch hres
      simp [World.originAllows, ho, Precondition.allows] at ha
    | some o =>
      obtain ⟨etag, hshown, hacc⟩ :=
        ifMatch_satisfied hag ho hres (by simpa [World.originAllows, ho] using ha)
      rw [hshown]
      exact hacc

/-- After a Head that has reported `x`, a write with the condition `pre` succeeds only if `x`
satisfies it. -/
def Heeds (N : Naming) (pre : Precondition) (x : Option Text) (q : Req Res) (w : World) : Prop :=
  ∀ t etag w', (.written etag, w') ∈ outcomes N t q w → satisfied pre x = true

/-- A write that is refused has changed nothing. -/
def Refuses (N : Naming) (q : Req Res) (w : World) : Prop :=
  ∀ t w', (.precondition, w') ∈ outcomes N t q w → w' = w

/-- The origin's object with its write-back row. -/
def committed : World :=
  { World.empty with
    origin := some ⟨⟨1, 1⟩, ['v']⟩
    wb := some ⟨['m'], ⟨⟨1, 1⟩, none⟩, none, some (.live ['v']), 0⟩ }

def putTwiceThen (pre : Precondition) : Req (Res × Res × Res × Res) := do
  let r₁ ← uploadWithOptions sampleNaming (sampleGateway 0) ⟨1, 1⟩ .none
  let r₂ ← uploadWithOptions sampleNaming (sampleGateway 0) largeBody .none
  let h ← head (sampleGateway 0)
  let r ← uploadWithOptions sampleNaming (sampleGateway 0) ⟨3, 1⟩ pre
  return (r₁, r₂, h, r)

end Conditional

end Pgvs3.Tier
