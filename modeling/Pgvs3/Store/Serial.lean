import Pgvs3.Store.Writers
/-!
# When conditional writes to one key are serializable

`publish_value` hashes the bare schema name into its advisory lock, `swapObjectParts` and
`copyObject` the quoted one, so the lock orders the writers of one family only. Across the families
the row lock orders every pair of writers that meet an existing row. What is left is an absent key,
an `If-None-Match: *` writer of one family and a writer of the other that may create the key
(`crossing_not_serial`).
-/

namespace Pgvs3.Writers

open Conc Sys List Outline

/-- A key of a native bucket. -/
structure Site where
  bucket : Text
  key : Text
  schema : Text
  valid : Kind.bucket.schema bucket = some schema

/-- The advisory lock that a family takes for the key: SQL hashes the bare schema name, Go the
quoted one. -/
def Site.lockText (s : Site) : Family → Text
  | .sql => lockKey s.schema s.key
  | .go => lockKey (quoteIdent s.schema) s.key

inductive Writer where
  | put (p : PublishArgs Text Nat)
  | complete (pre : Precondition) (etag : Text) (file : Nat) (expiresAt : Option Nat)
  | copy (src : CopySource) (cond : ReadCondition) (dest : Precondition)

namespace Writer

def family : Writer → Family
  | put _ => .sql
  | complete _ _ _ _ | copy _ _ _ => .go

def pre : Writer → Precondition
  | put p => p.cond
  | complete pre _ _ _ => pre
  | copy _ _ dest => dest

/-- The expiry the writer gives the row. -/
def expiresAt : Writer → Option Nat
  | put p => p.expiresAt
  | complete _ _ _ e => e
  | copy _ _ _ => none

def prog (s : Site) : Writer → sys.Req
  | put p => publishValue (s.lockText .sql) p
  | complete pre etag file e => swapObjectParts (s.lockText .go) pre etag file e
  | copy src cond dest => copyObject (s.lockText .go) src cond dest

end Writer

/-- Request `t` runs writer `ws t`; every interleaving of their statements is a run. -/
def policy (s : Site) (ws : Nat → Option Writer) : sys.Policy where
  spawn t _ p := ∃ a, ws t = some a ∧ p = a.prog s
  step _ _ _ _ := True
  env _ _ := True

def World.init (now : Nat) (row : Option Row) : World := ⟨now, row, none, none, fun _ => none, []⟩

/-- Every committed precondition held of the row left by the write committed just before; `row` is
what the last one left. -/
def Serial (row0 : Option Row) : List Commit → Option Row → Prop
  | [], row => row = row0
  | c :: cs, row => row = some c.wrote ∧ holdsOf c.family c.pre c.checkedAt c.before = true ∧ Serial row0 cs c.before

/-- An `IfAbsent` writer of one family and a writer of the other that can create the key. -/
def Crossing (ws : Nat → Option Writer) : Prop :=
  ∃ t u a b, ws t = some a ∧ ws u = some b ∧ a.pre = .ifAbsent ∧ b.pre.creates = true ∧ a.family ≠ b.family

/-- Nothing in the run has an expiry, and the key starts absent. -/
def NoTTL (row0 : Option Row) (ws : Nat → Option Writer) : Prop :=
  row0 = none ∧ ∀ t a, ws t = some a → a.expiresAt = none

/-! ## The outline -/

section Outline

variable (s : Site) (ws : Nat → Option Writer) (row0 : Option Row)

structure Inv (w : World) : Prop where
  serial : Serial row0 w.log w.row
  owner : ∀ t r, w.draft = some (t, r) → w.rowLock = some t
  present : row0.isSome → w.row.isSome
  ttl : NoTTL row0 ws → (∀ r, w.row = some r → r.expiresAt = none) ∧
    (∀ t r, w.draft = some (t, r) → r.expiresAt = none) ∧ ∀ c ∈ w.log, c.wrote.expiresAt = none

/-- What a step of `u` leaves alone, and what it knows when it changes the row. -/
structure Guar (u : Option Nat) (w w' : World) : Prop where
  locks : ∀ k v, u ≠ some v → (w'.locks k = some v ↔ w.locks k = some v)
  rowLock : ∀ v, u ≠ some v → (w'.rowLock = some v ↔ w.rowLock = some v)
  held : ∀ v, u ≠ some v → w.rowLock = some v → w'.row = w.row ∧ w'.draft = w.draft
  row : w'.row ≠ w.row → ∃ v a, u = some v ∧ ws v = some a ∧ w.locks (s.lockText a.family) = some v ∧
    (w.row = none → a.pre.creates = true)

structure Idle (t : Nat) (w : World) : Prop where
  locks : ∀ k, w.locks k ≠ some t
  rowLock : w.rowLock ≠ some t

def outline : Outline sys where
  inv := Inv ws row0
  guar := Guar s ws
  idle := Idle
  post t _ := Idle t

end Outline

variable {P : World → Prop} {row0 : Option Row} {ws : Nat → Option Writer}

section Steps

variable {s : Site} {ws : Nat → Option Writer} {row0 : Option Row} {t : Nat} {w w' : World}

theorem idle_release : Idle t (w.release t) :=
  ⟨fun k => by simp only [World.release]; split <;> simp_all,
   by simp only [World.release]; split <;> simp_all⟩

theorem inv_release (h : Inv ws row0 w) : Inv ws row0 (w.release t) where
  serial := h.serial
  owner u r hd := by
    simp only [World.release] at hd ⊢
    split at hd
    · cases hd
    · next hn =>
      have hu : u ≠ t := by simpa [hd] using hn
      simp [h.owner u r hd, hu]
  present := h.present
  ttl hn := by
    obtain ⟨hr, hd, hl⟩ := h.ttl hn
    refine ⟨hr, fun u r hu => ?_, hl⟩
    simp only [World.release] at hu
    split at hu
    · cases hu
    · exact hd u r hu

/-- Whoever holds the row lock is the only one with an uncommitted version. -/
theorem Inv.draft_of_rowLock (h : Inv ws row0 w) {v : Nat} (hv : w.rowLock = some v) (hne : v ≠ t) : w.draft.map (·.1) ≠ some t := by
  intro hd
  obtain ⟨⟨u, r⟩, hx, rfl⟩ := Option.map_eq_some_iff.1 hd
  have := h.owner u r hx
  simp_all

theorem guar_release (h : Inv ws row0 w) : Guar s ws (some t) w (w.release t) where
  locks k v hv := by
    simp only [World.release]
    split
    · next h => simp [h, hv]
    · exact Iff.rfl
  rowLock v hv := by
    simp only [World.release]
    split
    · next h => simp [h, hv]
    · exact Iff.rfl
  held v hv hl := by
    have hv' : v ≠ t := by simpa [eq_comm] using hv
    exact ⟨rfl, by simp [World.release, h.draft_of_rowLock hl hv']⟩
  row hne := absurd rfl hne

theorem guar_refl (u : Option Nat) : Guar s ws u w w :=
  ⟨fun _ _ _ => Iff.rfl, fun _ _ => Iff.rfl, fun _ _ _ => ⟨rfl, rfl⟩, fun h => absurd rfl h⟩

theorem stable_idle : (outline s ws row0).Stable t (Idle t) := by
  intro u w w' hu _ _ hg hp
  exact ⟨fun k hk => hp.locks k ((hg.locks k t hu).1 hk), fun hl => hp.rowLock ((hg.rowLock t hu).1 hl)⟩

variable {st : Stmt} {k : st.Ans → sys.Req}

variable (s ws row0 t) in
/-- The rest of a writer ends with no lock of its own. -/
abbrev Ensures (p : sys.Req) (P : World → Prop) : Prop := (outline s ws row0).Meets (policy s ws) t p P fun _ => Idle t

theorem meets_tryStmt (P' : st.Ans → World → Prop) (hs : ∀ a, (outline s ws row0).Stable t (P' a))
    (hx : ∀ w, Inv ws row0 w → P w → ∀ a w', (a, w') ∈ body t st w → Inv ws row0 w' ∧ Guar s ws (some t) w w' ∧ P' a w')
    (hk : ∀ a, Ensures s ws row0 t (k a) (P' a)) :
    Ensures s ws row0 t (tryStmt st k) P := by
  intro w hi hw r w' hm _
  rcases exec_cases hm with ⟨a, rfl, hb⟩ | ⟨rfl, rfl⟩
  · obtain ⟨hi', hg, hp⟩ := hx w hi hw a w' hb
    exact ⟨hi', hg, P' a, hs a, hp, hk a⟩
  · exact ⟨inv_release hi, guar_release hi, Idle t, stable_idle, idle_release, fun _ _ h => h⟩

theorem meets_abort (e : End) : Ensures s ws row0 t (abort e) P := by
  refine meets_tryStmt (fun _ => Idle t) (fun _ => stable_idle) (fun w hi _ a w' hb => ?_) fun _ _ _ h => h
  cases mem_singleton.1 hb
  exact ⟨inv_release hi, guar_release hi, idle_release⟩

theorem meets_read (hb : ∀ w a w', (a, w') ∈ body t st w → w' = w) (hs : (outline s ws row0).Stable t P)
    (hk : ∀ a, Ensures s ws row0 t (k a) P) :
    Ensures s ws row0 t (tryStmt st k) P := by
  refine meets_tryStmt (fun _ => P) (fun _ => hs) (fun w hi hp a w' hm => ?_) hk
  obtain rfl := hb w a w' hm
  exact ⟨hi, guar_refl _, hp⟩

end Steps

/-! ## Locks, the check and the write -/

variable {s : Site} {t : Nat} {a : Writer}

def Held (s : Site) (a : Writer) (t : Nat) (w : World) : Prop := w.locks (s.lockText a.family) = some t

/-- What `SELECT .. FOR UPDATE` answered is still so: a row is locked, and where an `IfAbsent`
writer saw none there is none. -/
def Seen (a : Writer) (t : Nat) (old : Option Row) (w : World) : Prop :=
  match old with
  | some r => w.rowLock = some t ∧ w.row = some r
  | none => a.pre = .ifAbsent → w.row = none

/-- The precondition, checked at `at_`, will hold when the row is written. -/
def Checked (a : Writer) (t at_ : Nat) (w : World) : Prop :=
  (w.rowLock = some t ∧ holdsOf a.family a.pre at_ w.row = true) ∨ a.pre = .none ∨ (a.pre = .ifAbsent ∧ w.row = none)

def Written (a : Writer) (t at_ : Nat) (w : World) : Prop :=
  (∃ r, w.draft = some (t, r)) ∧ w.rowLock = some t ∧ holdsOf a.family a.pre at_ w.row = true

theorem stable_held : (outline s ws row0).Stable t (Held s a t) :=
  fun _ _ _ hu _ _ hg hp => (hg.locks _ t hu).2 hp

variable {w w' : World} {at_ : Nat} {old : Option Row} {k : Text} {x : Unit} {r : Row} {dest pre : Precondition} {src : CopySource}

/-- The key stays absent under an `IfAbsent` writer that holds its lock: a creator of its family
needs the lock, one of the other is a crossing. -/
theorem absent_stable (hc : row0.isSome ∨ ¬ Crossing ws) (ha : ws t = some a) (hp : a.pre = .ifAbsent)
    {u : Option Nat} (hu : u ≠ some t) (hi : Inv ws row0 w) (hg : Guar s ws u w w')
    (hl : Held s a t w) (hr : w.row = none) : w'.row = none := by
  by_contra hne
  obtain ⟨v, b, rfl, hb, hlb, hcr⟩ := hg.row (by simpa [hr] using hne)
  have hf : a.family ≠ b.family := by
    intro he
    rw [Held, he, hlb] at hl
    exact hu hl
  rcases hc with h0 | h0
  · have := hi.present h0
    simp [hr] at this
  · exact h0 ⟨t, v, a, b, ha, hb, hp, hcr hr, hf⟩

theorem stable_seen (hc : row0.isSome ∨ ¬ Crossing ws) (ha : ws t = some a) (old : Option Row) :
    (outline s ws row0).Stable t fun w => Held s a t w ∧ Seen a t old w := by
  intro u w w' hu hi hi' hg ⟨hl, hp⟩
  refine ⟨stable_held u w w' hu hi hi' hg hl, ?_⟩
  cases old with
  | some r =>
    obtain ⟨hk, hr⟩ := hp
    exact ⟨(hg.rowLock t hu).2 hk, by rw [(hg.held t hu hk).1, hr]⟩
  | none => exact fun hpre => absent_stable hc ha hpre hu hi hg hl (hp hpre)

theorem stable_written (at_ : Nat) : (outline s ws row0).Stable t fun w => Held s a t w ∧ Written a t at_ w := by
  intro u w w' hu hi hi' hg ⟨hl, ⟨r, hd⟩, hk, hh⟩
  obtain ⟨hr, hd'⟩ := hg.held t hu hk
  exact ⟨stable_held u w w' hu hi hi' hg hl, ⟨r, by rw [hd', hd]⟩, (hg.rowLock t hu).2 hk, by rw [hr, hh]⟩

theorem creates_of_holdsOf {f : Family} (h : holdsOf f pre at_ none = true) : pre.creates = true := by
  cases f with
  | sql => exact Precondition.creates_of_sqlAllows h
  | go => exact Precondition.creates_of_allows h

theorem checked_of_seen (hs : Seen a t old w) (hh : holdsOf a.family a.pre at_ old = true) : Checked a t at_ w := by
  cases old with
  | some r =>
    obtain ⟨hk, hr⟩ := hs
    exact .inl ⟨hk, by rw [hr, hh]⟩
  | none =>
    have hcr : a.pre.creates = true := creates_of_holdsOf hh
    cases hp : a.pre with
    | none => exact .inr (.inl hp)
    | ifAbsent => exact .inr (.inr ⟨hp, hs hp⟩)
    | ifPresent | ifMatch => simp [hp, Precondition.creates] at hcr

theorem holdsOf_none_pre (f : Family) (at_ : Nat) (r : Option Row) : holdsOf f .none at_ r = true := by
  cases f <;> rfl

theorem holdsOf_absent (f : Family) (at_ : Nat) : holdsOf f .ifAbsent at_ none = true := by
  cases f <;> rfl

theorem free_iff {l : Option Nat} : free l t = true ↔ ∀ v, l = some v → v = t := by
  cases l <;> simp [free]

theorem lock_cases (h : (x, w') ∈ body t (.lock k) w) :
    free (w.locks k) t = true ∧ w' = { w with locks := fun k' => if k' = k then some t else w.locks k' } := by
  simp only [body] at h
  split at h
  · next hf => cases mem_singleton.1 h; exact ⟨hf, rfl⟩
  · cases h

theorem guar_lock (h : (x, w') ∈ body t (.lock k) w) : Guar s ws (some t) w w' := by
  obtain ⟨hf, rfl⟩ := lock_cases h
  refine ⟨fun k' v hv => ?_, fun _ _ => Iff.rfl, fun _ _ _ => ⟨rfl, rfl⟩, fun h => absurd rfl h⟩
  by_cases he : k' = k
  · subst he
    have : w.locks k' ≠ some v := fun hl => hv (by rw [free_iff.1 hf v hl])
    simp [hv, this]
  · simp [he]

theorem inv_lock (h : (x, w') ∈ body t (.lock k) w) (hi : Inv ws row0 w) : Inv ws row0 w' := by
  obtain ⟨_, rfl⟩ := lock_cases h
  exact ⟨hi.serial, hi.owner, hi.present, hi.ttl⟩

theorem meets_lock {k : sys.Req} (hk : Ensures s ws row0 t k (Held s a t)) :
    Ensures s ws row0 t (tryStmt (.lock (s.lockText a.family)) fun _ => k) P := by
  refine meets_tryStmt (fun _ => Held s a t) (fun _ => stable_held) (fun w hi _ x w' hb => ?_) fun _ => hk
  refine ⟨inv_lock hb hi, guar_lock hb, ?_⟩
  obtain ⟨_, rfl⟩ := lock_cases hb
  simp [Held]

theorem meets_lock_other {k : sys.Req} {l : Text} (hk : Ensures s ws row0 t k (Held s a t)) :
    Ensures s ws row0 t (tryStmt (.lock l) fun _ => k) (Held s a t) := by
  refine meets_tryStmt (fun _ => Held s a t) (fun _ => stable_held) (fun w hi hp x w' hb => ?_) fun _ => hk
  refine ⟨inv_lock hb hi, guar_lock hb, ?_⟩
  obtain ⟨_, rfl⟩ := lock_cases hb
  simp only [Held] at hp ⊢
  split
  · rfl
  · exact hp

theorem select_cases (h : (old, w') ∈ body t .selectForUpdate w) : old = w.row ∧ (w.row = none ∧ w' = w ∨
      w.row.isSome ∧ free w.rowLock t = true ∧ w' = { w with rowLock := some t }) := by
  simp only [body] at h
  split at h
  · next hr => cases mem_singleton.1 h; exact ⟨hr.symm, .inl ⟨hr, rfl⟩⟩
  · next r hr =>
    split at h
    · next hf => cases mem_singleton.1 h; exact ⟨hr.symm, .inr ⟨by simp [hr], hf, rfl⟩⟩
    · cases h

theorem guar_rowLock (hf : free w.rowLock t = true) : Guar s ws (some t) w { w with rowLock := some t } := by
  refine ⟨fun _ _ _ => Iff.rfl, fun v hv => ?_, fun _ _ _ => ⟨rfl, rfl⟩, fun h => absurd rfl h⟩
  have : w.rowLock ≠ some v := fun hl => hv (by rw [free_iff.1 hf v hl])
  simp [hv, this]

theorem inv_rowLock (hf : free w.rowLock t = true) (hi : Inv ws row0 w) : Inv ws row0 { w with rowLock := some t } :=
  ⟨hi.serial, fun u r hd => by rw [free_iff.1 hf u (hi.owner u r hd)], hi.present, hi.ttl⟩

theorem meets_select (hc : row0.isSome ∨ ¬ Crossing ws) (ha : ws t = some a) {k : Option Row → sys.Req}
    (hk : ∀ old, Ensures s ws row0 t (k old) (fun w => Held s a t w ∧ Seen a t old w)) :
    Ensures s ws row0 t (tryStmt .selectForUpdate k) (Held s a t) := by
  refine meets_tryStmt (fun old w => Held s a t w ∧ Seen a t old w) (fun old => stable_seen hc ha old) (fun w hi hp old w' hb => ?_) hk
  obtain ⟨rfl, ⟨hr, rfl⟩ | ⟨hr, hf, rfl⟩⟩ := select_cases hb
  · exact ⟨hi, guar_refl _, hp, by rw [hr]; exact fun _ => hr⟩
  · obtain ⟨r, hr⟩ := Option.isSome_iff_exists.1 hr
    exact ⟨inv_rowLock hf hi, guar_rowLock hf, hp, by rw [hr]; exact ⟨rfl, rfl⟩⟩

/-- An upsert that gives the row no expiry it did not have. -/
def Upsert.Timeless (u : Upsert) : Prop :=
  ∀ old r, (∀ o, old = some o → o.expiresAt = none) → u.apply old = some r → r.expiresAt = none

variable {u : Upsert} {cond : ReadCondition}

theorem upsert_cases {b : Bool} (h : (b, w') ∈ body t (.upsert u) w) : free w.rowLock t = true ∧
      ((b = false ∧ u.apply w.row = none ∧ w' = { w with rowLock := some t }) ∨
        ∃ r, b = true ∧ u.apply w.row = some r ∧ w' = { w with rowLock := some t, draft := some (t, r) }) := by
  simp only [body] at h
  split at h
  · next hf =>
    refine ⟨hf, ?_⟩
    split at h
    · next r hr => cases mem_singleton.1 h; exact .inr ⟨r, rfl, hr, rfl⟩
    · next hr => cases mem_singleton.1 h; exact .inl ⟨rfl, hr, rfl⟩
  · cases h

theorem inv_draft (hi : Inv ws row0 w) (hr : NoTTL row0 ws → r.expiresAt = none) :
    Inv ws row0 { w with rowLock := some t, draft := some (t, r) } where
  serial := hi.serial
  owner u r' hd := by cases hd; rfl
  present := hi.present
  ttl hn := ⟨(hi.ttl hn).1, fun u r' hd => by cases hd; exact hr hn, (hi.ttl hn).2.2⟩

theorem guar_draft (hf : free w.rowLock t = true) : Guar s ws (some t) w { w with rowLock := some t, draft := some (t, r) } := by
  have hg : Guar s ws (some t) w { w with rowLock := some t } := guar_rowLock hf
  refine ⟨fun _ _ _ => Iff.rfl, hg.rowLock, fun v hv hl => ?_, fun h => absurd rfl h⟩
  exact absurd (by rw [free_iff.1 hf v hl]) hv

theorem meets_upsert (at_ : Nat) (hu : NoTTL row0 ws → u.Timeless) {k : Bool → sys.Req}
    (hf : Ensures s ws row0 t (k false) (fun _ => ∃ old, u.apply old = none))
    (ht : Ensures s ws row0 t (k true) (fun w => Held s a t w ∧ Written a t at_ w)) :
    Ensures s ws row0 t (tryStmt (.upsert u) k) (fun w => Held s a t w ∧ Checked a t at_ w) := by
  refine meets_tryStmt (fun (b : Bool) w => if b = true then Held s a t w ∧ Written a t at_ w
    else ∃ old, u.apply old = none) (fun b => ?_) (fun w hi hp b w' hb => ?_) (fun b => ?_)
  · cases b
    · exact stable_const _
    · exact stable_written at_
  · obtain ⟨hfree, ⟨rfl, hr, rfl⟩ | ⟨r, rfl, hr, rfl⟩⟩ := upsert_cases hb
    · exact ⟨inv_rowLock hfree hi, guar_rowLock hfree, _, hr⟩
    · refine ⟨inv_draft hi fun hn => hu hn _ r (hi.ttl hn).1 hr, guar_draft hfree, hp.1, ⟨r, rfl⟩, rfl, ?_⟩
      rcases hp.2 with ⟨_, hh⟩ | hn | ⟨hpre, hrow⟩
      · exact hh
      · rw [hn]; exact holdsOf_none_pre _ _ _
      · rw [hpre]; simpa [hrow] using holdsOf_absent a.family at_
  · cases b
    · exact hf
    · exact ht

theorem meets_commit (ha : ws t = some a) : Ensures s ws row0 t (tryStmt (.commit a.family a.pre at_) fun _ => .ret .written)
      (fun w => Held s a t w ∧ Written a t at_ w) := by
  refine meets_tryStmt (fun _ => Idle t) (fun _ => stable_idle) (fun w hi hp x w' hb => ?_) fun _ _ _ h => h
  obtain ⟨hl, ⟨r, hd⟩, hk, hh⟩ := hp
  simp only [body, hd, if_true] at hb
  cases mem_singleton.1 hb
  have hr : Inv ws row0 (w.release t) := inv_release hi
  have hg : Guar s ws (some t) w (w.release t) := guar_release hi
  refine ⟨⟨⟨rfl, hh, hi.serial⟩, hr.owner, fun _ => rfl, fun hn => ⟨?_, (hr.ttl hn).2.1, ?_⟩⟩,
    ⟨hg.locks, hg.rowLock, fun v hv hv' => ?_, fun _ => ⟨t, a, rfl, ha, hl, fun hrow => ?_⟩⟩,
    ⟨idle_release.locks, idle_release.rowLock⟩⟩
  · rintro r' ⟨⟩
    exact (hi.ttl hn).2.1 t r hd
  · intro c hc
    rcases mem_cons.1 hc with rfl | hc
    · exact (hi.ttl hn).2.1 t r hd
    · exact (hi.ttl hn).2.2 c hc
  · exact absurd (hk.symm.trans hv') hv
  · rw [hrow] at hh
    exact creates_of_holdsOf hh

/-! ## The three paths -/

section

variable (hc : row0.isSome ∨ ¬ Crossing ws)
include hc

theorem meets_replaceRow (ha : ws t = some a) (hfam : a.family = .go) (hu : NoTTL row0 ws → u.Timeless) (hw : ∀ old, u.apply old ≠ none) :
    Ensures s ws row0 t (replaceRow a.pre u) (Held s a t) := by
  refine meets_select hc ha fun old => ?_
  refine meets_read (fun w n w' hb => by cases mem_singleton.1 hb; rfl) (stable_seen hc ha old) fun now => ?_
  split
  · next hok =>
    have hh : holdsOf a.family a.pre now old = true := by rw [hfam]; exact hok
    have hcommit : (outline s ws row0).Meets (policy s ws) t
        (tryStmt (.commit .go a.pre now) fun _ => .ret .written) (fun w => Held s a t w ∧ Written a t now w)
        fun _ => Idle t := hfam ▸ meets_commit ha
    refine Meets.pre (fun w _ hp => ⟨hp.1, checked_of_seen hp.2 hh⟩) (meets_upsert now hu ?_ hcommit)
    exact Meets.pre (fun w _ ⟨old, ho⟩ => absurd ho (hw old)) hcommit
  · exact meets_abort _

theorem meets_publishValue {p : PublishArgs Text Nat} (ha : ws t = some (.put p)) :
    Ensures s ws row0 t ((Writer.put p).prog s) (Idle t) := by
  have hu : NoTTL row0 ws → ∀ now, (Upsert.publish p now).Timeless := by
    intro hn now old r hold hr
    have hp : p.expiresAt = none := hn.2 t _ ha
    simp only [Upsert.apply, PublishArgs.write] at hr
    split at hr
    · cases hr
    · cases hr
      simp only [PublishArgs.newExpiry]
      split
      · next o => split <;> simp [hp, hold]
      · exact hp
  -- from the tests on, with the row as far as it was read
  have hrest : ∀ now old, p.check old now = .ok → (outline s ws row0).Meets (policy s ws) t
      (tryStmt (.upsert (.publish p now)) fun (written : Bool) =>
        if written then tryStmt (.commit .sql p.cond now) fun _ => .ret .written else abort .stale)
      (fun w => Held s (.put p) t w ∧ (p.cond = .none ∨ Seen (.put p) t old w)) fun _ => Idle t := by
    intro now old hok
    have hh : holdsOf .sql p.cond now old = true := by
      simp only [PublishArgs.check] at hok
      by_contra hne
      simp [holdsOf] at hne
      simp [hne] at hok
    refine Meets.pre (fun w _ hp => ⟨hp.1, ?_⟩) (meets_upsert now (fun hn => hu hn now) (meets_abort _) (meets_commit ha))
    exact hp.2.elim (fun hn => .inr (.inl hn)) fun hseen => checked_of_seen hseen hh
  refine meets_read (fun w n w' hb => by cases mem_singleton.1 hb; rfl) stable_idle fun now => ?_
  refine meets_lock (a := .put p) ?_
  split
  · refine meets_select hc ha fun old => ?_
    split
    · exact meets_abort _
    · exact meets_abort _
    · next hok => exact Meets.pre (fun w _ hp => ⟨hp.1, .inr hp.2⟩) (hrest now old hok)
  · next hr =>
    have hn : p.cond = .none := by simp [PublishArgs.reads] at hr; exact hr.1
    dsimp only
    split
    · exact meets_abort _
    · exact meets_abort _
    · next hok => exact Meets.pre (fun w _ hp => ⟨hp, .inl hn⟩) (hrest now none hok)

theorem meets_swapObjectParts {etag : Text} {file : Nat}
    {e : Option Nat} (ha : ws t = some (.complete pre etag file e)) :
    Ensures s ws row0 t ((Writer.complete pre etag file e).prog s) (Idle t) := by
  refine meets_read (fun w n w' hb => by cases mem_singleton.1 hb; rfl) stable_idle fun _ => ?_
  refine meets_read (fun w n w' hb => by cases mem_singleton.1 hb; rfl) stable_idle fun _ => ?_
  refine meets_lock (meets_replaceRow hc ha rfl ?_ (by simp [Upsert.apply]))
  rintro hn old r - ⟨⟩
  exact hn.2 t _ ha

theorem meets_copyFound (ha : ws t = some (.copy src cond dest)) (now : Nat) (found : Option (Text × Nat)) :
    Ensures s ws row0 t (copyFound now cond dest found) (Held s (.copy src cond dest) t) := by
  unfold copyFound
  split
  · exact meets_abort _
  · split
    · refine meets_read (fun w n w' hb => by cases mem_singleton.1 hb; rfl) stable_held fun _ => ?_
      refine meets_replaceRow hc ha rfl ?_ (by simp [Upsert.apply])
      rintro hn old r hold ⟨⟩
      cases old with
      | none => rfl
      | some o => exact hold o rfl
    · exact meets_abort _

theorem meets_copyObject (ha : ws t = some (.copy src cond dest)) :
    Ensures s ws row0 t ((Writer.copy src cond dest).prog s) (Idle t) := by
  refine meets_read (fun w n w' hb => by cases mem_singleton.1 hb; rfl) stable_idle fun now => ?_
  cases src with
  | self =>
    refine meets_lock (a := .copy .self cond dest) ?_
    exact meets_read (fun w n w' hb => by cases mem_singleton.1 hb; rfl) stable_held fun r => meets_copyFound hc ha now _
  | other l first found =>
    cases first with
    | true =>
      refine meets_tryStmt (fun _ _ => True) (fun _ => stable_true)
        (fun w hi _ x w' hb => ⟨inv_lock hb hi, guar_lock hb, trivial⟩) fun _ => ?_
      exact meets_lock (a := .copy (.other l true found) cond dest) (meets_copyFound hc ha now _)
    | false =>
      exact meets_lock (a := .copy (.other l false found) cond dest) (meets_lock_other (meets_copyFound hc ha now _))

end

/-! ## Every run -/

theorem outline_sound (hc : row0.isSome ∨ ¬ Crossing ws) : (outline s ws row0).Sound (policy s ws) where
  idle_stable _ := stable_idle
  spawn t w p _ hd := by
    rintro ⟨a, ha, rfl⟩
    refine ⟨Idle t, stable_idle, hd, ?_⟩
    cases a with
    | put p => exact meets_publishValue hc ha
    | complete pre etag file e => exact meets_swapObjectParts hc ha
    | copy src cond dest => exact meets_copyObject hc ha
  done t a w hi hp := ⟨hi, guar_refl _, hp⟩
  env d w w' hi _ he := by
    cases he
    exact ⟨⟨hi.serial, hi.owner, hi.present, hi.ttl⟩, fun _ _ _ => Iff.rfl, fun _ _ => Iff.rfl,
      fun _ _ _ => ⟨rfl, rfl⟩, fun h => absurd rfl h⟩

theorem inv_init {now : Nat} : Inv ws row0 (World.init now row0) where
  serial := rfl
  owner _ _ h := by cases h
  present h := h
  ttl hn := by
    refine ⟨fun r hr => ?_, nofun, nofun⟩
    rw [hn.1] at hr
    cases hr

def absentCommits (log : List Commit) : List Commit := log.filter fun c => c.pre = .ifAbsent

/-- When no row expires, an `IfAbsent` write finds nothing, so it is the first. -/
theorem absentCommits_length_le {log : List Commit} {row : Option Row} (h : Serial none log row)
    (ht : ∀ c ∈ log, c.wrote.expiresAt = none) : (absentCommits log).length ≤ 1 := by
  induction log generalizing row with
  | nil => simp [absentCommits]
  | cons c cs ih =>
    obtain ⟨_, hh, hs⟩ := h
    have hcs := ih hs fun d hd => ht d (mem_cons_of_mem c hd)
    by_cases hp : c.pre = .ifAbsent
    · cases cs with
      | nil => simp [absentCommits, hp]
      | cons d ds =>
        -- the row before `c` is the one `d` left, and it is live
        have hd : d.wrote.expiresAt = none := ht d (by simp)
        have hlive : liveOld c.before c.checkedAt = true := by
          rw [hs.1]
          simp [liveOld, ObjectRow.live, hd]
        rw [hp] at hh
        cases hf : c.family <;>
          simp [holdsOf, hf, hlive, Precondition.sqlAllows, Precondition.allows] at hh
    · simpa [absentCommits, hp] using hcs

/-- Serializability of the writers `ws` of a key that starts as `row0`, in every run. -/
def Serializable (s : Site) (ws : Nat → Option Writer) (row0 : Option Row) : Prop :=
  ∀ now c, Reaches (policy s ws) (World.init now row0) c →
    Serial row0 c.world.log c.world.row ∧ (NoTTL row0 ws → (absentCommits c.world.log).length ≤ 1)

/-- **Conditional writes are serializable** on an existing key, and on an absent one unless an
`IfAbsent` writer of one family meets a possible creator of the other. -/
theorem serializable_of_not_crossing (s : Site) (ws : Nat → Option Writer) (row0 : Option Row)
    (h : row0.isSome ∨ ¬ Crossing ws) : Serializable s ws row0 := by
  intro now c hr
  have hi := ((outline_sound h).reaches inv_init (fun t => ⟨fun k => by simp [World.init], by simp [World.init]⟩) hr).inv
  refine ⟨hi.serial, fun hn => ?_⟩
  have hs := hi.serial
  rw [hn.1] at hs
  exact absentCommits_length_le hs (hi.ttl hn).2.2

def sampleSite : Site := ⟨['b'], ['k'], ['s', '3', 'b', '_', 'b'], by decide⟩

def absentPut : Writer := .put ⟨['e', '1'], 1, .ifAbsent, none, false, none, none⟩

/-- Any number of `If-None-Match: *` PUTs on an absent key. -/
theorem serializable_absent_puts : ¬ Crossing (fun _ => some absentPut) ∧ Serializable sampleSite (fun _ => some absentPut) none := by
  have h : ¬ Crossing (fun _ => some absentPut) := by
    rintro ⟨_, _, a, b, ha, hb, _, _, hf⟩
    cases ha
    cases hb
    exact hf rfl
  exact ⟨h, serializable_of_not_crossing _ _ _ (.inr h)⟩

/-! ## The crossing -/

def absentComplete : Writer := .complete .ifAbsent ['e', '2', '-', '1'] 2 none

/-- A PUT and a CompleteUpload, both `If-None-Match: *`. -/
def crossingWriters : Nat → Option Writer
  | 0 => some absentPut
  | 1 => some absentComplete
  | _ => none

/-- The PUT checks, the CompleteUpload checks and commits, the PUT commits. -/
def crossingSchedule : List (Move sys) :=
  [.spawn 0 (absentPut.prog sampleSite), .spawn 1 (absentComplete.prog sampleSite), .run 0 0, .run 0 0, .run 0 0,
    .run 1 0, .run 1 0, .run 1 0, .run 1 0, .run 1 0, .run 1 0, .run 1 0,
    .run 0 0, .run 0 0]

instance (s : Site) (ws : Nat → Option Writer) : (policy s ws).Decides where
  step _ _ _ _ := .isTrue trivial
  env _ _ := .isTrue trivial

theorem crossingSchedule_starts : (policy sampleSite crossingWriters).Starts crossingSchedule :=
  And.intro (fun _ => ⟨absentPut, rfl, rfl⟩) (And.intro (fun _ => ⟨absentComplete, rfl, rfl⟩) trivial)

theorem crossing_not_serializable : ¬ ∀ s ws row0, Serializable s ws row0 := by
  intro hall
  obtain ⟨c, hr, hc⟩ := reaches_of_replay crossingSchedule_starts
    (w := World.init 0 none) (fun c => decide ((absentCommits c.world.log).length = 2)) (by decide +kernel)
  have := (hall sampleSite crossingWriters none 0 c hr).2 ⟨rfl, ?_⟩
  · simp at hc
    omega
  · intro t a ha
    match t, ha with
    | 0, ha => cases ha; rfl
    | 1, ha => cases ha; rfl

end Pgvs3.Writers
