import Pgvs3.Conc.History
import Pgvs3.Tier.Gone
import Pgvs3.Tier.Shape
/-!
# Deletes are final

A flush reads the pending row, uploads its body and commits under the session lock of the key, which
`Delete` takes before it deletes at the origin. The tombstone of `DeleteMany` takes it for its own
transaction, after the origin has deleted: a flush that uploads in between puts the object back
(`deleteMany_resurrected`).
-/

namespace Pgvs3.Tier

open Conc Sys List Tier Outline

/-- Flushes and deletes of the key. -/
inductive IsFinishing (N : Naming) : Req Res → Prop
  | flush (g : Gateway) (owner : Nat) : IsFinishing N (runPendingOnce g owner)
  | delete (g : Gateway) : IsFinishing N (delete N g)
  | deleteMany (g : Gateway) : IsFinishing N (deleteMany N g)

namespace Finality

/-- A delete has put its tombstone (`sealed`), its fence (`fenced`), has returned success
(`deleted`); who has deleted at the origin without the session lock and not yet put a tombstone. -/
structure Hist where
  sealed : Bool
  fenced : Bool
  deleted : Bool
  opened : List Nat

def Hist.init : Hist := ⟨false, false, false, []⟩

/-- The tombstone of request `t` has been tried. -/
def Hist.tombstone (h : Hist) (t : Nat) : Option (Option Row) → Hist
  | some (some _) => { h with sealed := true, opened := h.opened.filter (· != t) }
  | _ => { h with opened := h.opened.filter (· != t) }

def observer (N : Naming) : Observer (sys N) Hist where
  step t s r w _ h :=
    match s, r with
    | .originDelete, true => if World.session w = some t then h else { h with opened := t :: h.opened }
    | .db (.publish .write .tombstone _ _ _), r => h.tombstone t r
    | .db (.publish .read .tombstone _ _ _), some (some _) => { h with fenced := true }
    | _, _ => h
  env _ _ _ h := h
  done _ a _ h := match a with
    | .deleted => { h with deleted := true }
    | _ => h

/-- Any flushes and deletes, any sweep; nobody else writes at the origin. -/
def everyRun (N : Naming) : (observer N).sys.Policy where
  spawn _ _ p := IsFinishing N p
  step _ _ _ _ := True
  env e _ := ∀ o, e ≠ .originPut o

/-- The same, without an upload inside a `DeleteMany`. A refusal where the origin allows the upload
answers a second attempt. -/
def policy (N : Naming) : (observer N).sys.Policy where
  spawn _ _ p := IsFinishing N p
  step _ s w r :=
    match s, r with
    | .originUpload _ _ _, .ok _ | .originUpload _ _ _, .failed => w.2.opened = []
    | .originUpload _ pre _, .precondition => w.1.originAllows pre = true → w.2.opened = []
    | _, _ => True
  env e _ := ∀ o, e ≠ .originPut o

structure Inv (w : World) (h : Hist) : Prop where
  sealed : h.sealed = true → w.origin = none ∧ Dead w.wb
  fenced : h.fenced = true → Dead w.rc ∧ w.ometa = none
  deleted : h.deleted = true → h.sealed = true ∧ h.fenced = true
  inbox : ∀ t, w.inbox t = none

variable {w : World} {s : Stmt}

theorem Inv.gone {h : Hist} (hi : Inv w h) (hd : h.deleted = true) : Gone w := by
  obtain ⟨hs, hf⟩ := hi.deleted hd
  refine ⟨(hi.sealed hs).1, (hi.sealed hs).2, (hi.fenced hf).1, (hi.fenced hf).2, fun t r hr => ?_⟩
  rw [hi.inbox t] at hr
  cases hr

structure Guar (u : Option Nat) (x x' : World × Hist) : Prop where
  /-- The session lock is its holder's. -/
  session : ∀ v, u ≠ some v → x.1.session = some v → x'.1.session = some v
  opened : ∀ v, u ≠ some v → v ∈ x.2.opened → v ∈ x'.2.opened
  /-- Only the holder of the session lock uploads, and not inside a `DeleteMany`. -/
  origin : x.1.origin = none → x'.1.origin = none ∨ (x.2.opened = [] ∧ ∃ v, u = some v ∧ x.1.session = some v)
  /-- A tombstone waits for the session lock. -/
  sealing : x.2.sealed = false → x'.2.sealed = true → ∀ v, u ≠ some v → x.1.session ≠ some v
  sealed : x.2.sealed = true → x'.2.sealed = true
  fenced : x.2.fenced = true → x'.2.fenced = true

def outline (N : Naming) : Outline (observer N).sys where
  inv x := Inv x.1 x.2
  guar := Guar
  idle _ _ := True
  post _ a x := a = .deleted → x.2.sealed = true ∧ x.2.fenced = true

abbrev Shows (N : Naming) (t : Nat) {α : Type} (p : Req α) (P : World × Hist → Prop) (Q : α → World × Hist → Prop) : Prop :=
  (outline N).Meets (policy N) t p P Q

/-! ## Statements -/

variable {N : Naming} {w' : World} {h : Hist} {t : Nat} {r : s.Ans}

/-- A statement that leaves the origin, the reachable rows and the history as they are. -/
structure Mild (t : Nat) (w w' : World) : Prop where
  origin : w'.origin = w.origin
  wb : Dead w.wb → Dead w'.wb
  rc : Dead w.rc → Dead w'.rc
  ometa : w.ometa = none → w'.ometa = none
  inbox : w'.inbox = w.inbox
  session : ∀ v, t ≠ v → w.session = some v → w'.session = some v

theorem Mild.refl (w : World) : Mild t w w := ⟨rfl, id, id, id, rfl, fun _ _ h => h⟩

theorem Mild.inv (hm : Mild t w w') (hi : Inv w h) : Inv w' h := by
  refine ⟨fun hs => ?_, fun hf => ?_, hi.deleted, fun u => ?_⟩
  · rw [hm.origin]
    exact (hi.sealed hs).imp_right hm.wb
  · exact (hi.fenced hf).imp hm.rc hm.ometa
  · rw [hm.inbox]
    exact hi.inbox u

theorem Mild.guar (hm : Mild t w w') : Guar (some t) (w, h) (w', h) where
  session v hv := hm.session v fun he => hv (by rw [he])
  opened _ _ hv := hv
  origin ho := .inl (hm.origin.trans ho)
  sealing hs hs' := by rw [hs] at hs'; cases hs'
  sealed hs := hs
  fenced hf := hf

def mildUpdate : Update → Bool
  | .claim _ | .failPending _ _ _ _ | .clearToken _ | .clearPending | .markCommitted _ _ _ | .abandon _ | .deleteCacheRow => true
  | _ => false

theorem mildUpdate_mild {u : Update} (hu : mildUpdate u = true) : Mild t w (u.apply w).2 := by
  cases u with
  | claim owner =>
    simp only [Update.apply, claimPendingUploads]
    split
    · split
      · exact ⟨rfl, id, id, id, rfl, fun _ _ h => h⟩
      · exact .refl w
    · exact .refl w
  | markCommitted T v exp =>
    refine ⟨rfl, fun hd r' hr' => ?_, id, id, rfl, fun _ _ h => h⟩
    obtain ⟨r, hr, rfl⟩ := Option.map_eq_some_iff.1 hr'
    have hv := hd r hr
    split
    · next hp => rw [hp] at hv; cases hv
    · exact hv
  | abandon T => exact ⟨rfl, fun hd => hd.filter _, id, id, rfl, fun _ _ h => h⟩
  | deleteCacheRow => exact ⟨rfl, id, fun _ => Dead.none, id, rfl, fun _ _ h => h⟩
  | failPending | clearToken | clearPending => exact ⟨rfl, id, id, id, rfl, fun _ _ h => h⟩
  | _ => cases hu

def mildStmt : Stmt → Bool
  | .clock | .lockKey _ | .unlockKey _ | .lockSession | .unlockSession | .rows => true
  | .db u | .attempt u => mildUpdate u
  | _ => false

theorem mildStmt_mild (hs : mildStmt s = true) (hx : (r, w') ∈ exec N t s w) : Mild t w w' := by
  have hupd : ∀ {u : Update} {r : Option u.Ans}, mildUpdate u = true → (r, w') ∈ execUpdate t u w → Mild t w w' := by
    intro u r hu hx
    rcases execUpdate_cases hx with ⟨_, rfl⟩ | ⟨_, rfl, _⟩
    · exact .refl _
    · exact mildUpdate_mild hu
  cases s with
  | db | attempt => exact hupd hs hx
  | clock =>
    cases mem_singleton.1 hx
    exact .refl _
  | lockKey g =>
    simp only [exec] at hx
    split at hx
    · cases mem_singleton.1 hx
      exact ⟨rfl, id, id, id, rfl, fun _ _ h => h⟩
    · cases hx
  | unlockKey g =>
    cases mem_singleton.1 hx
    split
    · exact ⟨rfl, id, id, id, rfl, fun _ _ h => h⟩
    · exact .refl _
  | lockSession =>
    rcases mem_lockSession_cases hx with ⟨-, hn, rfl⟩ | ⟨-, rfl⟩
    · exact ⟨rfl, id, id, id, rfl, fun v _ h => by rw [hn] at h; cases h⟩
    · exact .refl _
  | unlockSession =>
    cases mem_singleton.1 hx
    split
    · next hn =>
      refine ⟨rfl, id, id, id, rfl, fun v hv h => ?_⟩
      rw [hn] at h
      exact absurd (Option.some.inj h) hv
    · exact .refl _
  | rows =>
    rcases mem_cons.1 hx with hm | hm
    · cases hm
      exact .refl _
    · cases mem_singleton.1 hm
      exact .refl _
  | _ => cases hs

theorem step_mild (hs : mildStmt s = true) (hi : Inv w h) (hx : (r, w') ∈ exec N t s w) :
    (observer N).step t s r w w' h = h ∧ Inv w' h ∧ Guar (some t) (w, h) (w', h) := by
  have hm := mildStmt_mild hs hx
  refine ⟨?_, hm.inv hi, hm.guar⟩
  cases s with
  | db u =>
    cases u with
    | publish => cases hs
    | _ => rfl
  | originDelete => cases hs
  | _ => rfl

/-- The key is gone from the origin, and no upload comes before the request's tombstone. -/
def Barred (t : Nat) (x : World × Hist) : Prop := x.1.origin = none ∧ (x.1.session = some t ∨ t ∈ x.2.opened)

/-- The request holds the session lock, and no delete has put its tombstone. -/
def Window (t : Nat) (x : World × Hist) : Prop := x.1.session = some t ∧ x.2.sealed = false

def Holding (t : Nat) (x : World × Hist) : Prop := x.1.session = some t

theorem stable_holding : (outline N).Stable t (Holding t) := fun _ _ _ hu _ _ hg h => hg.session t hu h

theorem stable_barred : (outline N).Stable t (Barred t) := by
  intro u x x' hu _ _ hg h
  refine ⟨?_, h.2.imp (hg.session t hu) (hg.opened t hu)⟩
  rcases hg.origin h.1 with ho | ⟨hn, v, rfl, hv⟩
  · exact ho
  · rcases h.2 with hs | hm
    · exact absurd (hv.symm.trans hs) fun he => hu (by rw [Option.some.inj he])
    · rw [hn] at hm
      cases hm

theorem stable_window : (outline N).Stable t (Window t) := by
  intro u x x' hu _ _ hg h
  refine ⟨hg.session t hu h.1, ?_⟩
  cases hs : x'.2.sealed with
  | false => rfl
  | true => exact absurd h.1 (hg.sealing h.2 hs t hu)

theorem stable_sealed : (outline N).Stable t fun x => x.2.sealed = true := fun _ _ _ _ _ _ hg h => hg.sealed h

theorem step_upload {body : Body} {pre : Precondition} {conditional : Bool} {r : Uploaded} (hi : Inv w h)
    (hw : Window t (w, h)) (hx : (r, w') ∈ exec N t (.originUpload body pre conditional) w)
    (ha : (policy N).step t (.originUpload body pre conditional) (w, h) r) :
    Inv w' h ∧ Guar (some t) (w, h) (w', h) := by
  have hup : h.opened = [] → Inv (w.upload N body) h ∧ Guar (some t) (w, h) (w.upload N body, h) := by
    intro ho
    refine ⟨⟨fun hs => ?_, hi.fenced, hi.deleted, hi.inbox⟩, ⟨fun _ _ hv => hv, fun _ _ hv => hv, fun _ => ?_, ?_, id, id⟩⟩
    · rw [hw.2] at hs
      cases hs
    · exact .inr ⟨ho, t, rfl, hw.1⟩
    · intro hs hs'
      rw [hs] at hs'
      cases hs'
  have hno : Inv w h ∧ Guar (some t) (w, h) (w, h) := ⟨hi, (Mild.refl w).guar⟩
  simp only [exec] at hx
  split at hx
  · cases mem_singleton.1 hx
    exact hno
  · split at hx
    · next hallows =>
      rcases mem_append.1 hx with hx | hx
      · simp only [mem_cons, not_mem_nil, or_false] at hx
        rcases hx with hx | hx | hx <;> cases hx
        · exact hup ha
        · exact hno
        · exact hup ha
      · split at hx
        · cases mem_singleton.1 hx
          exact hup (ha hallows)
        · cases hx
    · simp only [mem_cons, not_mem_nil, or_false] at hx
      rcases hx with hx | hx <;> cases hx <;> exact hno

theorem step_originDelete {r : Bool} (hi : Inv w h) (hx : (r, w') ∈ exec N t .originDelete w) :
    Inv w' ((observer N).step t .originDelete r w w' h) ∧ Guar (some t) (w, h) (w', (observer N).step t .originDelete r w w' h) ∧
      (r = true → Barred t (w', (observer N).step t .originDelete r w w' h)) := by
  have hinv : ∀ h' : Hist, h'.sealed = h.sealed → h'.fenced = h.fenced → h'.deleted = h.deleted → Inv { w with origin := none } h' := by
    intro h' hs hf hd
    refine ⟨fun h1 => ⟨rfl, (hi.sealed (hs ▸ h1)).2⟩, fun h1 => hi.fenced (hf ▸ h1), fun h1 => ?_, hi.inbox⟩
    rw [hs, hf]
    exact hi.deleted (hd ▸ h1)
  have hgone : ∀ h' : Hist, h'.sealed = h.sealed → h'.fenced = h.fenced → (∀ v ∈ h.opened, v ∈ h'.opened) →
      Guar (some t) (w, h) ({ w with origin := none }, h') := by
    intro h' hs hf ho
    refine ⟨fun _ _ hv => hv, fun v _ hv => ho v hv, fun _ => .inl rfl, fun h1 h2 => ?_, fun h1 => hs.trans h1, fun h1 => hf.trans h1⟩
    rw [hs] at h2
    rw [h1] at h2
    cases h2
  simp only [exec, mem_cons, not_mem_nil, or_false] at hx
  rcases hx with hx | hx | hx <;> cases hx
  · by_cases hs : w.session = some t
    · have he : (observer N).step t .originDelete true w { w with origin := none } h = h := if_pos hs
      rw [he]
      exact ⟨hinv h rfl rfl rfl, hgone h rfl rfl fun _ hv => hv, fun _ => ⟨rfl, .inl hs⟩⟩
    · have he : (observer N).step t .originDelete true w { w with origin := none } h = { h with opened := t :: h.opened } :=
        if_neg hs
      rw [he]
      exact ⟨hinv _ rfl rfl rfl, hgone _ rfl rfl fun _ hv => mem_cons_of_mem t hv, fun _ => ⟨rfl, .inr (mem_cons_self ..)⟩⟩
  · exact ⟨hi, (Mild.refl w).guar, fun hr => by cases hr⟩
  · exact ⟨hinv h rfl rfl rfl, hgone h rfl rfl fun _ hv => hv, fun hr => by cases hr⟩

theorem dead_tombstone (N : Naming) (w : World) (now : Nat) : Dead (some (tombstoneRow N w now)) :=
  fun _ hr => by cases hr; rfl

variable {now : Nat} {r : Option (Option Row)}

theorem step_tombstone (hi : Inv w h) (hb : Barred t (w, h)) (hx : (r, w') ∈ exec N t (.db (tombstone N now)) w) :
    Inv w' ((observer N).step t (.db (tombstone N now)) r w w' h) ∧
      Guar (some t) (w, h) (w', (observer N).step t (.db (tombstone N now)) r w w' h) ∧
      (r ≠ none → ((observer N).step t (.db (tombstone N now)) r w w' h).sealed = true) := by
  have hopen : ∀ v, some t ≠ some v → v ∈ h.opened → v ∈ h.opened.filter (· != t) := by
    intro v hv hm
    simpa [hm] using fun he : v = t => hv (by rw [he])
  rcases execUpdate_cases hx with ⟨rfl, rfl⟩ | ⟨rfl, rfl, hfree⟩
  · refine ⟨⟨hi.sealed, hi.fenced, hi.deleted, hi.inbox⟩, ⟨fun _ _ hv => hv, hopen, .inl, ?_, id, id⟩, fun hr => absurd rfl hr⟩
    intro hs hs'
    cases hs.symm.trans hs'
  · rw [apply_tombstone]
    simp only [tombstone, observer, Hist.tombstone]
    refine ⟨⟨fun _ => ⟨hb.1, dead_tombstone N w now⟩, hi.fenced, fun hd => ⟨rfl, (hi.deleted hd).2⟩, hi.inbox⟩,
      ⟨fun _ _ hv => hv, hopen, .inl, fun _ _ v hv hs => ?_, fun _ => rfl, id⟩, fun _ => trivial⟩
    -- the transaction has waited for the lock
    exact hv (by rw [holder_of_free (hfree rfl) hs])

theorem step_fence (hi : Inv w h) (hx : (r, w') ∈ exec N t (.db (fence N now)) w) :
    Inv w' ((observer N).step t (.db (fence N now)) r w w' h) ∧
      Guar (some t) (w, h) (w', (observer N).step t (.db (fence N now)) r w w' h) ∧
      (r ≠ none → ((observer N).step t (.db (fence N now)) r w w' h).fenced = true) := by
  rcases execUpdate_cases hx with ⟨rfl, rfl⟩ | ⟨rfl, rfl, _⟩
  · exact ⟨hi, (Mild.refl _).guar, fun hr => absurd rfl hr⟩
  · rw [apply_fence]
    simp only [fence, observer]
    refine ⟨⟨hi.sealed, fun _ => ⟨dead_tombstone N w now, rfl⟩, fun hd => ⟨(hi.deleted hd).1, rfl⟩, hi.inbox⟩,
      ⟨fun _ _ hv => hv, fun _ _ hv => hv, .inl, fun hs hs' => ?_, id, fun _ => rfl⟩, fun _ => trivial⟩
    cases hs.symm.trans hs'

/-! ## Requests -/

variable {g : Gateway} {α : Type}

variable {P : World × Hist → Prop} {a : Res} {p : Req Res} {f : s.Ans → Req α} {Q : α → World × Hist → Prop}

theorem meets_mild (hs : mildStmt s = true) (P' : s.Ans → World × Hist → Prop) (hst : ∀ r, (outline N).Stable t (P' r))
    (hx : ∀ w h r w', Inv w h → P (w, h) → (r, w') ∈ exec N t s w → P' r (w', h))
    (hk : ∀ r, Shows N t (f r) (P' r) Q) :
    Shows N t (ask s >>= f) P Q := by
  refine Meets.observed (Ω := outline N) P' hst (fun w h hi hP r w' he _ => ?_) hk
  obtain ⟨hh, hi', hg⟩ := step_mild hs hi he
  rw [hh]
  exact ⟨hi', hg, hx w h r w' hi hP he⟩

theorem meets_any (hs : mildStmt s = true) (hk : ∀ r, Shows N t (f r) (fun _ => True) Q) : Shows N t (ask s >>= f) P Q :=
  meets_mild hs (fun _ _ => True) (fun _ => stable_true) (fun _ _ _ _ _ _ _ => trivial) hk

def Done (a : Res) (x : World × Hist) : Prop := a = .deleted → x.2.sealed = true ∧ x.2.fenced = true

theorem stable_done (a : Res) : (outline N).Stable t (Done a) :=
  fun _ _ _ _ _ _ hg h ha => ⟨hg.sealed (h ha).1, hg.fenced (h ha).2⟩

theorem meets_ret (ha : a ≠ .deleted) : Shows N t (pure a) P Done :=
  fun _ _ _ h => absurd h ha

theorem meets_last (hs : mildStmt s = true) (ha : a ≠ .deleted) : Shows N t (ask s >>= fun _ => pure a) P Done :=
  meets_any hs fun _ => meets_ret ha

theorem meets_keep {f : s.Ans → Req Res} (hs : mildStmt s = true) (hf : ∀ r, Shows N t (f r) (Done a) Done) :
    Shows N t (ask s >>= f) (Done a) Done :=
  meets_mild hs (fun _ => Done a) (fun _ => stable_done a) (fun _ _ _ _ _ hw _ => hw) hf

theorem meets_lockWrite : Shows N t (lockWrite g) P fun b x => b = true → Holding t x := by
  refine meets_any rfl fun _ => ?_
  refine meets_mild rfl (fun b x => b = true → Holding t x)
    (fun b u x x' hu hi hi' hg hb ht => stable_holding u x x' hu hi hi' hg (hb ht)) (fun w h r w' _ _ hm hr => ?_) fun b => ?_
  · subst hr
    obtain ⟨-, -, rfl⟩ := (mem_lockSession_cases hm).resolve_right nofun
    rfl
  · split
    · next hb => exact fun x _ hx _ => hx hb
    · exact meets_any rfl fun _ _ _ _ hb => by cases hb

theorem meets_withLockWrite (hp : Shows N t p (Holding t) Done) : Shows N t (withLockWrite g p) P Done := by
  refine meets_lockWrite.bind fun b => ?_
  split
  · next hb =>
    refine (hp.pre fun x _ hx => hx hb).bind fun a => ?_
    exact meets_keep rfl fun _ => meets_keep rfl fun _ _ _ hx => hx
  · exact meets_ret (by simp)

theorem meets_requireWrite (hp : Shows N t p P Done) : Shows N t (requireWrite g p) P Done := by
  unfold requireWrite
  split
  · exact meets_ret (by simp)
  · exact hp

/-- A flush uploads only inside its window: the row it has read is pending, so no tombstone is. -/
theorem meets_flush (p : Entry) (owner : Nat) : Shows N t (flushOneNoLock g p owner) (Holding t) Done := by
  refine meets_mild rfl
    (fun r x => ∀ s sm, r = some s → liveRow s.wb s.now = some sm → versionOf sm = .pending p.token → Window t x) ?_ ?_ fun r => ?_
  · exact fun r u x x' hu hi hi' hg hx s sm hr hs hv => stable_window u x x' hu hi hi' hg (hx s sm hr hs hv)
  · intro w h r w' hi hw hm s sm hr hs hv
    subst hr
    rcases mem_cons.1 hm with hm | hm
    · cases hm
      refine ⟨hw, ?_⟩
      cases hsl : h.sealed with
      | false => rfl
      | true =>
        have hd := (hi.sealed hsl).2 sm (Option.filter_eq_some_iff.1 hs).1
        rw [hv] at hd
        cases hd
    · cases mem_singleton.1 hm
  · split
    · exact meets_ret (by simp)
    · next s =>
      split
      · exact meets_last rfl (by simp)
      · next sm hs =>
        split
        · exact meets_last rfl (by simp)
        · next hv =>
          have hv : versionOf sm = .pending p.token := not_not.1 hv
          refine Meets.observed (Ω := outline N) (fun _ _ => True) (fun _ => stable_true) ?_ fun a => ?_
          · intro w h hi hw r w' he ha
            obtain ⟨hi', hg⟩ := step_upload hi (hw s sm rfl hs hv) he ha
            exact ⟨hi', hg, trivial⟩
          · split
            · refine meets_any rfl fun _ => ?_
              exact meets_last rfl (by simp)
            · exact meets_last rfl (by simp)
            · exact meets_last rfl (by simp)
            · refine meets_any rfl fun now => ?_
              refine meets_any rfl fun r => ?_
              split
              · exact meets_last rfl (by simp)
              · split
                · exact meets_ret (by simp)
                · exact meets_ret (by simp)

theorem meets_runPendingOnce (owner : Nat) : Shows N t (runPendingOnce g owner) P Done := by
  refine meets_any rfl fun r => ?_
  split
  · exact meets_withLockWrite (meets_flush _ owner)
  · exact meets_ret (by simp)

/-- From the origin delete on: the tombstone, the fence, the outbox. -/
theorem meets_deleteRows (now : Nat) : Shows N t (deleteRows N now) (Barred t) Done := by
  refine Meets.observed (Ω := outline N) (fun r x => r ≠ none → x.2.sealed = true)
    (fun r u x x' hu hi hi' hg hx hr => hg.sealed (hx hr)) (fun w h hi hb r w' he _ => step_tombstone hi hb he) fun r => ?_
  split
  · exact meets_ret (by simp)
  · refine meets_mild rfl (fun _ x => x.2.sealed = true) (fun _ => stable_sealed) (fun _ _ _ _ _ hw _ => hw nofun) fun now => ?_
    refine Meets.observed (Ω := outline N) (fun r x => x.2.sealed = true ∧ (r ≠ none → x.2.fenced = true))
      (fun r u x x' hu hi hi' hg hx => ⟨hg.sealed hx.1, fun hr => hg.fenced (hx.2 hr)⟩) (fun w h hi hs r w' he _ => ?_) fun r => ?_
    · obtain ⟨hi', hg, hf⟩ := step_fence (N := N) hi he
      exact ⟨hi', hg, hg.sealed hs, hf⟩
    · split
      · exact meets_ret (by simp)
      · refine Meets.pre (P := Done .deleted) (fun x _ hx _ => ⟨hx.1, hx.2 nofun⟩) ?_
        exact meets_keep rfl fun _ _ _ hx => hx

theorem meets_deleteLocked : Shows N t (deleteLocked N) P Done := by
  refine Meets.observed (Ω := outline N) (fun r x => r = true → Barred t x)
    (fun r u x x' hu hi hi' hg hx hr => stable_barred u x x' hu hi hi' hg (hx hr))
    (fun w h hi _ r w' he _ => step_originDelete hi he) fun r => ?_
  split
  · next hr =>
    refine meets_mild rfl (fun _ => Barred t) (fun _ => stable_barred) (fun w h r w' _ hw hm => ?_) meets_deleteRows
    cases mem_singleton.1 hm
    exact hw hr
  · exact meets_ret (by simp)

theorem meets_request (hp : IsFinishing N p) : Shows N t p (fun _ => True) Done := by
  cases hp with
  | flush g owner => exact meets_runPendingOnce owner
  | delete g => exact meets_requireWrite (meets_withLockWrite meets_deleteLocked)
  | deleteMany g =>
    refine meets_requireWrite ?_
    refine meets_any rfl fun _ => ?_
    refine meets_deleteLocked.bind fun r => ?_
    exact meets_keep rfl fun _ _ _ hx => hx

/-! ## Every run -/

theorem dead_env {e : Ev} (he : env N e w = some w') (side : Side) (hd : Dead (w.row side)) : Dead (w'.row side) := by
  rcases env_row he side with hr | ⟨_, hr, _⟩
  · rw [hr]
    exact hd
  · rw [hr]
    exact Dead.none

theorem outline_sound (N : Naming) : (outline N).Sound (policy N) where
  idle_stable _ := stable_true
  spawn t _ _ _ _ hp := ⟨fun _ => True, stable_true, trivial, meets_request hp⟩
  done t a := by
    rintro ⟨w, h⟩ hi hd
    have hg : Guar (some t) (w, h) (w, (observer N).done t a w h) := by
      refine ⟨fun _ _ hv => hv, fun v _ hv => ?_, .inl, fun hs hs' => ?_, fun hs => ?_, fun hf => ?_⟩ <;>
        cases a <;> first | assumption | cases hs.symm.trans hs'
    refine ⟨?_, hg, trivial⟩
    cases a with
    | deleted => exact ⟨hi.sealed, hi.fenced, fun _ => hd rfl, hi.inbox⟩
    | _ => exact hi
  env e := by
    rintro ⟨w, h⟩ ⟨w', h'⟩ hi ha hx
    obtain ⟨he, rfl⟩ := Observer.env_eq_some.1 hx
    have hk := env_keeps he
    obtain ⟨ho, hm⟩ := env_origin he
    have ho : w.origin = none → w'.origin = none := fun h => (ho ha).elim (fun h' => h'.trans h) id
    refine ⟨⟨fun hs => ?_, fun hf => ?_, hi.deleted, fun t => ?_⟩, fun v _ hv => ?_, fun _ _ hv => hv, fun h => .inl (ho h), ?_, id, id⟩
    · exact ⟨ho (hi.sealed hs).1, dead_env he .write (hi.sealed hs).2⟩
    · exact ⟨dead_env he .read (hi.fenced hf).1, hm (hi.fenced hf).2⟩
    · rw [hk.inbox]
      exact hi.inbox t
    · exact hk.session.trans hv
    · intro hs hs'
      cases hs.symm.trans hs'

/-- **Deletes are final.** In every run whose uploads avoid the inside of a `DeleteMany`, after a
successful delete the key is not at the origin, and no Head or Open finds it. -/
theorem delete_final (N : Naming) (w₀ : World) (hw : ∀ t, w₀.inbox t = none) (c : (observer N).sys.Conf)
    (hr : Reaches (policy N) (w₀, Hist.init) c) (hd : c.world.2.deleted = true) :
    c.world.1.origin = none ∧ Unreadable N c.world.1 := by
  have hi : Inv w₀ Hist.init := ⟨nofun, nofun, nofun, hw⟩
  have hh := ((outline_sound N).reaches (w := (w₀, Hist.init)) hi (fun _ => trivial) hr).inv
  exact ⟨(hh.gone hd).origin, (hh.gone hd).unreadable⟩

instance (N : Naming) : (policy N).Decides where
  step t s w r := by
    unfold policy
    dsimp only
    split
    · exact inferInstanceAs (Decidable (Hist.opened w.2 = []))
    · exact inferInstanceAs (Decidable (Hist.opened w.2 = []))
    · next pre _ => exact inferInstanceAs (Decidable (w.1.originAllows pre = true → Hist.opened w.2 = []))
    · exact .isTrue trivial
  env e _ := by
    cases e with
    | originPut o => exact .isFalse fun h => h o rfl
    | _ => exact .isTrue nofun

instance (N : Naming) : (everyRun N).Decides where
  step _ _ _ _ := .isTrue trivial
  env := Policy.Decides.env (A := policy N)

/-- An acknowledged body that waits for its upload. -/
def pendingWorld : World :=
  { World.empty with
    fresh := 1
    wb := some ⟨['m'], ⟨largeBody, some 0⟩, none, some (.pending 0), 0⟩
    outbox := some ⟨0, [], false, 0, false, 0, none, none⟩ }

/-- A flush has read the row; `Delete` of another gateway waits for it and then deletes. -/
def flushDeleteSchedule : List (Move (observer sampleNaming).sys) :=
  [.spawn 0 (runPendingOnce (sampleGateway 0) 7), .run 0 0, .run 0 0, .run 0 0, .run 0 0,
    .spawn 1 (delete sampleNaming (sampleGateway 1)), .run 1 0,
    .run 0 0, .run 0 0, .run 0 0, .run 0 0, .run 0 0, .done 0,
    .run 1 0, .run 1 0, .run 1 0, .run 1 0, .run 1 0, .run 1 0, .run 1 0, .run 1 0, .run 1 0, .done 1]

theorem delete_final_after_flush : ∃ c : (observer sampleNaming).sys.Conf,
    Reaches (policy sampleNaming) (pendingWorld, Hist.init) c ∧ c.world.2.deleted = true ∧
      c.world.1.origin = none ∧ Unreadable sampleNaming c.world.1 := by
  have hs : (policy sampleNaming).Starts flushDeleteSchedule :=
    And.intro (fun _ => IsFinishing.flush _ _) (And.intro (fun _ => IsFinishing.delete _) trivial)
  obtain ⟨c, hr, hc⟩ := reaches_of_replay hs (w := (pendingWorld, Hist.init)) (fun c => Hist.deleted c.world.2) (by decide +kernel)
  exact ⟨c, hr, hc, delete_final _ _ (fun _ => rfl) c hr hc⟩

/-- A flush has read the row; `DeleteMany` of another gateway deletes at the origin; the flush
uploads and commits; `DeleteMany` goes on to success. -/
def resurrectedSchedule : List (Move (observer sampleNaming).sys) :=
  [.spawn 0 (runPendingOnce (sampleGateway 0) 7), .run 0 0, .run 0 0, .run 0 0, .run 0 0,
    .spawn 1 (deleteMany sampleNaming (sampleGateway 1)), .run 1 0, .run 1 0,
    .run 0 0, .run 0 0, .run 0 0, .run 0 0, .run 0 0, .done 0,
    .run 1 0, .run 1 0, .run 1 0, .run 1 0, .run 1 0, .run 1 0, .done 1]

theorem deleteMany_resurrected : ¬ ∀ (N : Naming) (w₀ : World), (∀ t, w₀.inbox t = none) → ∀ c : (observer N).sys.Conf,
    Reaches (everyRun N) (w₀, Hist.init) c → c.world.2.deleted = true → (∀ t, c.pool t = none) →
      c.world.1.origin = none ∧ Unreadable N c.world.1 := by
  intro hall
  have hs : (everyRun sampleNaming).Starts resurrectedSchedule :=
    And.intro (fun _ => IsFinishing.flush _ _) (And.intro (fun _ => IsFinishing.deleteMany _) trivial)
  obtain ⟨c, hr, hq, hc⟩ := quiescent_of_replay hs (w := (pendingWorld, Hist.init))
    (fun c => Hist.deleted c.world.2 && (World.origin c.world.1).isSome) (by decide +kernel)
  simp only [Bool.and_eq_true] at hc
  have ho := (hall _ _ (fun _ => rfl) c hr hc.1 hq).1
  rw [ho] at hc
  cases hc.2

end Finality

end Pgvs3.Tier
