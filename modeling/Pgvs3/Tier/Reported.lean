import Pgvs3.Conc.Alone
import Pgvs3.Tier.Request
/-!
# What Head reports

With no other request on the key, Head reports what `shown` computes from the rows, the remembered
answer of the origin and the origin itself, in the world that it leaves (`head_settles`).
-/

namespace Pgvs3.Tier

open Conc Sys List Option Tier

structure Idle (w : World) : Prop where
  session : w.session = none
  keyLock : w.keyLock = fun _ => none
  flights : w.flights = fun _ => none
  inbox : w.inbox = fun _ => none

/-- The origin names its objects by strong ETags: a version is not empty and matches itself. -/
def StrongOrigin (w : World) : Prop :=
  ∀ o ∈ w.origin, o.version ≠ [] ∧ etagMatches o.version o.version = true

namespace Conditional

/-! ## What Head shows -/

section Definitions

variable (g : Gateway) (w : World)

def rows : Rows := ⟨w.now, w.wb, w.rc⟩

/-- The row counts as validated for `ttl` after it was written or refreshed. -/
def freshRow (r : Row) : Bool := 0 < g.ttl ∧ w.now < r.createdAt + g.ttl

/-- The remembered answer of the origin, while it counts. -/
def remembered : Option Info := if g.ranges then freshMeta g w.ometa w.now else none

/-- The ETag that Head reports, or that there is no object. -/
def shown : Option Text :=
  match (rows w).lookup with
  | none => ((remembered g w).map (·.etag)).or (w.origin.map (·.version))
  | some (side, r) =>
    match versionOf r with
    | .deleted _ => none
    | .pending _ => some (responseETag side r)
    | .live _ =>
      if freshRow g w r then some (responseETag side r)
      else w.origin.map fun o => if sameAsOrigin r o then responseETag side r else o.version

end Definitions

/-- `h` reports the ETag, or that there is no object. -/
def Reports : Res → Option Text → Prop
  | .found v, x => x = some v.etag
  | .notFound, x => x = none
  | _, _ => False

/-- What request `t` can answer with no other step in between, with the world that it leaves. -/
def outcomes (N : Naming) (t : Nat) {α : Type} (p : Req α) (w : World) : List (α × World) :=
  alone (sys N) t p w

/-! ## Statements -/

variable {N : Naming} {g : Gateway} {t : Nat} {w w' w₁ : World} {r : Row} {side : Side}
    {v : Text} {h : Res}

section Statements

variable {α β : Type} {a b : α}

@[simp] theorem mem_ret : (a, w') ∈ outcomes N t (.ret b) w ↔ a = b ∧ w' = w := mem_alone_pure

@[simp] theorem mem_bind {p : Req β} {f : β → Req α} :
    (a, w') ∈ outcomes N t (p >>= f) w ↔ ∃ b v, (b, v) ∈ outcomes N t p w ∧
      (a, w') ∈ outcomes N t (f b) v := mem_alone_bind

theorem mem_ask {s : Stmt} {a : s.Ans} :
    (a, w') ∈ outcomes N t (ask s) w ↔ (a, w') ∈ exec N t s w := mem_alone_last

end Statements

theorem mem_coalesceHead (hw : Idle w) {f : Fetched} :
    (f, w') ∈ outcomes N t (coalesceHead g) w ↔ (f = w.originAns ∨ f = .failed) ∧ w' = w := by
  have hfl : (fun k : FlightKey => if k = ⟨g.id, .head⟩ then none
    else if k = ⟨g.id, .head⟩ then some ⟨t, []⟩ else none) =
      fun _ => (none : Option Flight) := by
    funext k
    split <;> simp_all
  obtain ⟨-, -, hflights, -⟩ := hw
  cases w
  simp_all [coalesceHead, @mem_ask N, exec, World.enter, World.land, World.originAns,
    or_and_right, exists_or]

/-! ## Head -/

/-- Head has reported `x` and left `w₁`, where `x` is still to be reported. -/
structure Settled (g : Gateway) (x : Option Text) (w₁ : World) : Prop where
  idle : Idle w₁
  shown : x = shown g w₁

variable {x : Option Text}

theorem idle_touch (hw : Idle w) (side : Side) (retention : Nat) :
    Idle (touchNamespaceObject w side retention) := by
  cases side <;> exact ⟨hw.1, hw.2, hw.3, hw.4⟩

theorem settled_miss (hro : g.readOnly = false) (hw : Idle w) (hl : (rows w).lookup = none)
    (hm : (h, w₁) ∈ outcomes N t (head g) w) (hx : Reports h x) : Settled g x w₁ := by
  have hl' : Rows.lookup ⟨w.now, w.wb, w.rc⟩ = none := hl
  have hshown : shown g w = ((remembered g w).map (·.etag)).or (w.origin.map (·.version)) := by
    simp [shown, hl]
  cases hg : g.ranges <;> cases hf : freshMeta g w.ometa w.now <;> cases ho : w.origin <;>
    simp only [remembered, hg, hf, ho, if_true, Bool.false_eq_true, if_false, map_none, map_some,
      none_or, some_or] at hshown
  case true.none.some o =>
    by_cases hsize : g.rangeSize < o.body.size <;>
      simp [head, resolveCache, resolveMiss, validate, validateFound, @mem_ask N, exec,
        mem_coalesceHead hw, hl', hro, hg, hf, ho, hsize, or_and_right, exists_or, World.originAns,
        execUpdate, Update.locksKey, Update.apply] at hm
    · rcases hm with ⟨rfl, rfl⟩ | ⟨rfl, rfl⟩
      · cases hx
        unfold rememberOriginMetadata
        split
        · refine ⟨⟨hw.1, hw.2, hw.3, hw.4⟩, ?_⟩
          -- the answer is remembered, or comes from the origin again
          simp only [shown, rows, hl', remembered, hg, ho, if_true, freshMeta, Option.filter_some]
          split <;> rfl
        · exact ⟨hw, hshown.symm⟩
      · exact hx.elim
    · rcases hm with ⟨rfl, rfl⟩ | ⟨rfl, rfl⟩
      · exact ⟨hw, hx.trans hshown.symm⟩
      · exact hx.elim
  all_goals
    simp [head, resolveCache, resolveMiss, validate, validateFound, validateMissing, @mem_ask N,
      exec, mem_coalesceHead hw, hl', hg, hf, ho, or_and_right, exists_or, World.originAns] at hm
    rcases hm with ⟨rfl, rfl⟩ | ⟨rfl, rfl⟩
    · exact ⟨hw, hx.trans hshown.symm⟩
    · exact hx.elim

theorem lookup_cases (h : (rows w).lookup = some (side, r)) : w.row side = some r ∧
    r.live w.now = true ∧ (side = .read → liveRow w.wb w.now = none) := by
  simp only [Rows.lookup, rows] at h
  split at h
  · next r' hr =>
    cases h
    obtain ⟨hr, hl⟩ := filter_eq_some_iff.1 hr
    exact ⟨hr, hl, by simp⟩
  · next hn =>
    obtain ⟨_, hr, h⟩ := map_eq_some_iff.1 h
    cases h
    obtain ⟨hr, hl⟩ := filter_eq_some_iff.1 hr
    exact ⟨hr, hl, fun _ => hn⟩

/-- The row after `touchNamespaceObject`. -/
def refreshed (w : World) (retention : Nat) (r : Row) : Row :=
  { r with
    createdAt := w.now
    expiresAt := if 0 < retention then some (w.now + retention) else r.expiresAt }

theorem lookup_touch (h : (rows w).lookup = some (side, r)) (retention : Nat) :
    (rows (touchNamespaceObject w side retention)).lookup =
      some (side, refreshed w retention r) := by
  obtain ⟨hr, hl, hn⟩ := lookup_cases h
  have hlive : (refreshed w retention r).live w.now = true := by
    by_cases hp : 0 < retention
    · simp [refreshed, ObjectRow.live, hp]
    · simpa [refreshed, ObjectRow.live, hp] using hl
  have hrow : liveRow ((w.row side).map (refreshed w retention)) w.now =
      some (refreshed w retention r) := by
    simp [liveRow, hr, Option.filter_some, hlive]
  cases side with
  | write =>
    have hwb : liveRow (w.wb.map (refreshed w retention)) w.now = _ := hrow
    show Rows.lookup ⟨w.now, w.wb.map (refreshed w retention), w.rc⟩ = _
    simp only [Rows.lookup, hwb]
  | read =>
    have hrc : liveRow (w.rc.map (refreshed w retention)) w.now = _ := hrow
    show Rows.lookup ⟨w.now, w.wb, w.rc.map (refreshed w retention)⟩ = _
    simp only [Rows.lookup, hn, hrc, map_some]

theorem settled_row (hro : g.readOnly = false) (hw : Idle w)
    (hl : (rows w).lookup = some (side, r)) (hv : versionOf r = .live v)
    (hf : freshRow g w r = false) (hm : (h, w₁) ∈ outcomes N t (head g) w) (hx : Reports h x) :
    Settled g x w₁ := by
  have hl' : Rows.lookup ⟨w.now, w.wb, w.rc⟩ = some (side, r) := hl
  have hf' : ¬ (0 < g.ttl ∧ w.now < r.createdAt + g.ttl) := of_decide_eq_false hf
  have hfree : free w.session t = true := by simp [free, hw.session]
  have hretire : side = .write → (retireOriginObject w r).2 =
      { w with wb := none, rc := none, lease := none, ometa := none } := by
    rintro rfl
    have hr : w.wb = some r := (lookup_cases hl).1
    simp [retireOriginObject, hv, CacheVersion.isLive, hr, sameRow]
  have hgone : shown g { w with wb := none, rc := none, lease := none, ometa := none } =
      w.origin.map (·.version) := by
    simp [shown, rows, Rows.lookup, liveRow, remembered, freshMeta]
  have hshown : shown g w = w.origin.map fun o =>
      if sameAsOrigin r o then responseETag side r else o.version := by
    simp [shown, hl, hv, hf]
  cases ho : w.origin with
  | none =>
    rw [ho] at hshown
    cases side <;> simp [head, resolveCache, validate, validateMissing, @mem_ask N, exec,
      mem_coalesceHead hw, hl', hv, hf', hro, ho, or_and_right, exists_or, World.originAns,
      execUpdate, Update.locksKey, Update.apply, hfree] at hm
    · rcases hm with (⟨rfl, rfl⟩ | ⟨rfl, rfl⟩) | ⟨rfl, rfl⟩
      · rw [hretire rfl]
        exact ⟨⟨hw.1, hw.2, hw.3, hw.4⟩, by rw [hgone, ho]; exact hx⟩
      · exact ⟨hw, hx.trans hshown.symm⟩
      · exact hx.elim
    · rcases hm with ⟨rfl, rfl⟩ | ⟨rfl, rfl⟩
      · exact ⟨hw, hx.trans hshown.symm⟩
      · exact hx.elim
  | some o =>
    cases hs : sameAsOrigin r o <;>
      simp only [ho, hs, map_some, if_true, Bool.false_eq_true, if_false] at hshown <;>
      simp [head, resolveCache, validate, validateFound, @mem_ask N, exec, mem_coalesceHead hw, hl',
        hv, hf', hro, ho, hs, or_and_right, exists_or, World.originAns, execUpdate, Update.locksKey,
        Update.apply] at hm
    · cases side <;> simp [dropStale, @mem_ask N, exec, hro, or_and_right, exists_or, execUpdate,
        Update.locksKey, Update.apply, hfree] at hm
      · rcases hm with ⟨rfl, rfl⟩ | ⟨rfl, rfl⟩
        · rw [hretire rfl]
          exact ⟨⟨hw.1, hw.2, hw.3, hw.4⟩, by rw [hgone, ho]; exact hx⟩
        · exact hx.elim
      · rcases hm with ⟨rfl, rfl⟩ | ⟨rfl, rfl⟩
        · exact ⟨hw, hx.trans hshown.symm⟩
        · exact hx.elim
    · rcases hm with (⟨rfl, rfl⟩ | ⟨rfl, rfl⟩) | ⟨rfl, rfl⟩
      · refine ⟨idle_touch hw side _, hx.trans ?_⟩
        have hsame : sameAsOrigin (refreshed w (g.retentionFor side) r) o = true := hs
        have horigin : (touchNamespaceObject w side (g.retentionFor side)).origin = some o := by
          cases side <;> exact ho
        simp only [shown, lookup_touch hl, show versionOf (refreshed w _ r) = .live v from hv,
          horigin, map_some, hsame, if_true, ite_self]
        rfl
      · exact ⟨hw, hx.trans hshown.symm⟩
      · exact hx.elim

/-- What Head reports is `shown` in the world that it leaves. -/
theorem head_settles (hro : g.readOnly = false) (hw : Idle w)
    (hm : (h, w₁) ∈ outcomes N t (head g) w) (hx : Reports h x) : Settled g x w₁ := by
  cases hl : (rows w).lookup with
  | none => exact settled_miss hro hw hl hm hx
  | some m =>
    obtain ⟨side, r⟩ := m
    have hl' : Rows.lookup ⟨w.now, w.wb, w.rc⟩ = some (side, r) := hl
    cases hv : versionOf r with
    | live v =>
      cases hf : freshRow g w r with
      | false => exact settled_row hro hw hl hv hf hm hx
      | true =>
        have hf' : 0 < g.ttl ∧ w.now < r.createdAt + g.ttl := of_decide_eq_true hf
        simp [head, resolveCache, @mem_ask N, exec, hl', hv, hf', or_and_right, exists_or] at hm
        rcases hm with ⟨rfl, rfl⟩ | ⟨rfl, rfl⟩
        · exact ⟨hw, hx.trans (by simp [shown, hl, hv, hf, cachedInfo])⟩
        · exact hx.elim
    | deleted d | pending d =>
      simp [head, resolveCache, @mem_ask N, exec, hl', hv, or_and_right, exists_or] at hm
      rcases hm with ⟨rfl, rfl⟩ | ⟨rfl, rfl⟩
      · exact ⟨hw, hx.trans (by simp [shown, hl, hv, cachedInfo])⟩
      · exact hx.elim

end Conditional

end Pgvs3.Tier
