import Pgvs3.Tier.Routine
/-!
# Fills and fences: history, invariant, statements

`Hist` counts completed operations and remembers, for each fill, in which of these epochs the origin
answered it. A fill that is behind finds a tombstone in the read cache (`Inv`).
-/

namespace Pgvs3.Tier

open Conc Sys List Option

namespace Fencing

/-! ## History and conditions -/

/-- The number of completed writes, deletes and retirements (`epoch`); the lease owner of each
request; the epoch of the origin's answer to the holder of a lease, and to the fill in the read
cache (`filled`); who has put a fence and not yet returned (`past`); the epoch in which a request
joined a flight; and whether a fill was handed to somebody who joined after its answer's epoch
(`late`). -/
structure Hist where
  epoch : Nat
  holds : Nat → Option Nat
  got : Nat → Option Nat
  filled : Option Nat
  past : List Nat
  joined : FlightKey → Nat → Nat
  late : Bool

def Hist.init : Hist := ⟨0, fun _ => none, fun _ => none, none, [], fun _ _ => 0, false⟩

def Hist.answered (h : Hist) (t : Nat) : Option Nat := (h.holds t).bind h.got

def Hist.ask (h : Hist) (t : Nat) : Hist :=
  match h.holds t with
  | some o => { h with got := upd h.got o (some h.epoch) }
  | none => h

def Hist.join (h : Hist) (k : FlightKey) (t : Nat) : Hist :=
  { h with joined := fun k' u => if k' = k ∧ u = t then h.epoch else h.joined k' u }

def Hist.outruns (h : Hist) (k : FlightKey) (f : Flight) : Bool :=
  (h.answered f.leader).any fun e => f.waiters.any fun u => e < h.joined k u

def Hist.update (h : Hist) (t : Nat) : (u : Update) → u.Ans → Hist
  | .acquireLease, some o => { h with holds := upd h.holds t (some o) }
  | .publish .read (.fill _ owner) _ _ _, some _ => { h with filled := some ((h.got owner).getD 0) }
  | .publish .read .tombstone _ _ _, some _ => { h with past := t :: h.past }
  | .retire _, true => { h with epoch := h.epoch + 1 }
  | _, _ => h

def Hist.learn (h : Hist) (t : Nat) (w : World) : (s : Stmt) → s.Ans → Hist
  | .db u, some a | .attempt u, some a => h.update t u a
  | .originRead, _ => h.ask t
  | .join k, _ => h.join k t
  | .finish k (.row _), _ => { h with late := h.late || (w.flights k).any (h.outruns k) }
  | _, _ => h

/-- The read cache has a tombstone, expired or not. -/
def tombstoned (w : World) : Bool := w.rc.any fun r => (versionOf r).isDeleted

def lifts (w w' : World) : Bool := tombstoned w && !tombstoned w'

/-- The tombstone has gone by a step of `u`, and the row of a fill may have gone. -/
def Hist.track (h : Hist) (u : Option Nat) (w w' : World) : Hist :=
  { h with
    past := if lifts w w' then h.past.filter fun v => some v != u else h.past
    filled := if w'.rc.any fun r => !(versionOf r).isDeleted then h.filled else none }

def completes : Res → Bool
  | .written _ | .deleted => true
  | _ => false

def observer (N : Naming) : Observer (sys N) Hist where
  step t s r w w' h := (h.learn t w s r).track (some t) w w'
  env _ w w' h := h.track none w w'
  done t a _ h :=
    { h with
      epoch := if completes a then h.epoch + 1 else h.epoch
      holds := upd h.holds t none
      past := h.past.filter (· != t) }

/-- The holder of the fill lease has an answer from before the last completed operation. -/
def behind (w : World) (h : Hist) : Bool := w.lease.any fun l => (h.got l.owner).any (· < h.epoch)

/-- A tombstone goes only if no other request is between its fence and its return, and no fill is
behind. -/
def safe (x : World × Hist) (u : Option Nat) (w' : World) : Bool :=
  !lifts x.1 w' || ((x.2.past.all fun v => some v == u) && !behind w' x.2)

def everyRun (N : Naming) : (observer N).sys.Policy where
  spawn _ _ p := IsRequest N p
  step _ _ _ _ := True
  env _ _ := True

def policy (N : Naming) : (observer N).sys.Policy where
  spawn _ _ p := IsRequest N p
  step t s x r :=
    match s, r with
    -- no fence is lost
    | .attempt (.publish .read .tombstone _ _ _), none => False
    | .db u, some _ | .attempt u, some _ => safe x (some t) (u.apply x.1).2 = true
    | .join k, _ => ((World.flights x.1 k).all fun f => (Hist.answered x.2 f.leader).all (Hist.epoch x.2 ≤ ·)) = true
    | _, _ => True
  env e x := (env N e x.1).all (safe x none) = true

/-! ## The invariant -/

structure Inv (w : World) (h : Hist) : Prop where
  got_le : ∀ o e, h.got o = some e → e ≤ h.epoch
  got_fresh : ∀ o, w.fresh ≤ o → h.got o = none
  holds_lt : ∀ t o, h.holds t = some o → o < w.fresh
  /-- A fill that is behind finds a tombstone. -/
  behind : behind w h = true → tombstoned w = true
  past : h.past ≠ [] → tombstoned w = true
  filled : ∀ e, h.filled = some e → e = h.epoch ∧ tombstoned w = false
  waiters : ∀ k f t e, w.flights k = some f → t ∈ f.waiters → h.answered f.leader = some e → h.joined k t ≤ e
  joined_le : ∀ k t, h.joined k t ≤ h.epoch
  late : h.late = false

/-- What the steps of others leave to request `t`. -/
structure Rely (t : Nat) (x x' : World × Hist) : Prop where
  holds : ∀ o, x.2.holds t = some o → x'.2.holds t = some o
  got : ∀ o, (x.2.got o).isSome = true → (x'.2.got o).isSome = true
  past : t ∈ x.2.past → t ∈ x'.2.past

/-- How a request ends: a write or a delete that succeeds has put its fence. -/
def Ends (t : Nat) (a : Res) (x : World × Hist) : Prop := completes a = true → t ∈ x.2.past

def outline (N : Naming) : Outline (observer N).sys := .ofRely (fun x => Inv x.1 x.2) Rely (fun _ _ => True) Ends

abbrev Shows (N : Naming) (t : Nat) {α : Type} (p : Req α) (P : World × Hist → Prop) (Q : α → World × Hist → Prop) : Prop :=
  (outline N).Meets (policy N) t p P Q

/-! ## Steps of the world -/

variable {w w' : World} {h : Hist} {t v : Nat} {u : Option Nat}

theorem Rely.refl (x : World × Hist) : Rely v x x := ⟨fun _ => id, fun _ => id, id⟩

variable {x : World × Hist}

theorem Rely.trans {y z : World × Hist} (hxy : Rely v x y) (hyz : Rely v y z) : Rely v x z :=
  ⟨fun o ho => hyz.holds o (hxy.holds o ho), fun o ho => hyz.got o (hxy.got o ho), fun hp => hyz.past (hxy.past hp)⟩

theorem safe_iff : safe x u w' = true ↔ (lifts x.1 w' = true → (∀ v ∈ x.2.past, some v = u) ∧ behind w' x.2 = false) := by
  simp only [safe, Bool.or_eq_true, Bool.not_eq_true', Bool.and_eq_true, List.all_eq_true, beq_iff_eq]
  cases lifts x.1 w' <;> simp

/-- What a step does to the part of the world that fills depend on. -/
structure Moves (w w' : World) : Prop where
  fresh : w.fresh ≤ w'.fresh
  lease : ∀ l' ∈ w'.lease, (∃ l ∈ w.lease, l.owner = l'.owner) ∨ w.fresh ≤ l'.owner
  flights : ∀ k f' t, w'.flights k = some f' → t ∈ f'.waiters → ∃ f, w.flights k = some f ∧ f'.leader = f.leader ∧ t ∈ f.waiters

theorem Moves.behind (hm : Moves w w') (hi : Inv w h) (hb : Fencing.behind w' h = true) : Fencing.behind w h = true := by
  cases hl : w'.lease with
  | none => simp [Fencing.behind, hl] at hb
  | some l' =>
    simp only [Fencing.behind, hl, any_some] at hb
    rcases hm.lease l' hl with ⟨l, hw, ho⟩ | hf
    · rw [Fencing.behind, show w.lease = some l from hw, any_some, ho]
      exact hb
    · rw [hi.got_fresh _ hf] at hb
      cases hb

theorem tombstoned_of_not_lifts (hl : lifts w w' = false) (ht : tombstoned w = true) : tombstoned w' = true := by
  simpa [lifts, ht] using hl

theorem Inv.move (hi : Inv w h) (hm : Moves w w') (hs : safe (w, h) u w' = true) : Inv w' (h.track u w w') where
  got_le := hi.got_le
  got_fresh o ho := hi.got_fresh o (le_trans hm.fresh ho)
  holds_lt t o ho := lt_of_lt_of_le (hi.holds_lt t o ho) hm.fresh
  behind hb := by
    cases hl : lifts w w' with
    | true =>
      cases (safe_iff.1 hs hl).2.symm.trans hb
    | false => exact tombstoned_of_not_lifts hl (hi.behind (hm.behind hi hb))
  past hp := by
    cases hl : lifts w w' with
    | true =>
      refine absurd ?_ hp
      simp only [Hist.track, hl, if_true, filter_eq_nil_iff, bne_iff_ne, ne_eq, not_not]
      exact (safe_iff.1 hs hl).1
    | false =>
      simp only [Hist.track, hl, Bool.false_eq_true, if_false] at hp
      exact tombstoned_of_not_lifts hl (hi.past hp)
  filled e he := by
    simp only [Hist.track] at he
    split at he
    · next hr =>
      refine ⟨(hi.filled e he).1, ?_⟩
      cases hrc : w'.rc with
      | none => simp [tombstoned, hrc]
      | some r => simpa [tombstoned, hrc] using hr
    · cases he
  waiters k f' t e hf ht he := by
    obtain ⟨f, hf, hl, ht⟩ := hm.flights k f' t hf ht
    exact hi.waiters k f t e hf ht (hl ▸ he)
  joined_le := hi.joined_le
  late := hi.late

theorem Rely.track (hs : safe (w, h) u w' = true) (hv : u ≠ some v) : Rely v (w, h) (w', h.track u w w') := by
  refine ⟨fun _ => id, fun _ => id, fun hp => ?_⟩
  cases hl : lifts w w' with
  | true => exact absurd ((safe_iff.1 hs hl).1 v hp).symm hv
  | false => simpa [Hist.track, hl] using hp

section

variable (hi : Inv w h)
include hi

theorem Inv.hold {o : Nat} (ho : o < w.fresh) (hn : h.got o = none) :
    Inv w { h with holds := upd h.holds t (some o) } where
  got_le := hi.got_le
  got_fresh := hi.got_fresh
  holds_lt v o' hv := by
    by_cases e : v = t
    · subst e
      cases (upd_self _ _ _).symm.trans hv
      exact ho
    · exact hi.holds_lt v o' ((upd_ne _ _ e).symm.trans hv)
  behind := hi.behind
  past := hi.past
  filled := hi.filled
  waiters k f v e hf hv he := by
    by_cases el : f.leader = t
    · simp [Hist.answered, el, hn] at he
    · exact hi.waiters k f v e hf hv (by simpa [Hist.answered, upd_ne _ _ el] using he)
  joined_le := hi.joined_le
  late := hi.late

/-- The origin answers: the answer belongs to the present epoch. -/
theorem Inv.ask (t : Nat) : Inv w (h.ask t) ∧ ∀ v, Rely v (w, h) (w, h.ask t) := by
  unfold Hist.ask
  split
  · next o ho =>
    have hgot : ∀ o', upd h.got o (some h.epoch) o' = some h.epoch ∨ upd h.got o (some h.epoch) o' = h.got o' := by
      intro o'
      by_cases e : o' = o
      · subst e
        exact .inl (upd_self _ _ _)
      · exact .inr (upd_ne _ _ e)
    refine ⟨⟨fun o' e he => ?_, fun o' hf => ?_, hi.holds_lt, fun hb => hi.behind ?_, hi.past, hi.filled,
      fun k f v e hf hv he => ?_, hi.joined_le, hi.late⟩, fun v => ⟨fun _ => id, fun o' h' => ?_, id⟩⟩
    · rcases hgot o' with hg | hg
      · cases hg.symm.trans he
        exact le_rfl
      · exact hi.got_le o' e (hg.symm.trans he)
    · have hlt := hi.holds_lt t o ho
      exact (upd_ne _ _ (by omega)).trans (hi.got_fresh o' hf)
    · cases hl : w.lease with
      | none => simp [Fencing.behind, hl] at hb
      | some l =>
        simp only [Fencing.behind, hl, any_some] at hb ⊢
        rcases hgot l.owner with hg | hg
        · simp [hg] at hb
        · simpa [hg] using hb
    · obtain ⟨o', hh, hg'⟩ := bind_eq_some_iff.1 he
      rcases hgot o' with hg | hg
      · cases hg.symm.trans hg'
        exact hi.joined_le k v
      · exact hi.waiters k f v e hf hv (bind_eq_some_iff.2 ⟨o', hh, hg.symm.trans hg'⟩)
    · rcases hgot o' with hg | hg
      · simp [hg, isSome_some]
      · simpa only [hg] using h'
  · exact ⟨hi, fun v => .refl _⟩

theorem Inv.pass (ht : tombstoned w = true) : Inv w { h with past := t :: h.past } :=
  ⟨hi.got_le, hi.got_fresh, hi.holds_lt, hi.behind, fun _ => ht, hi.filled, hi.waiters, hi.joined_le, hi.late⟩

theorem Inv.fill (ht : tombstoned w = false) {e : Nat} (he : e = h.epoch) : Inv w { h with filled := some e } :=
  ⟨hi.got_le, hi.got_fresh, hi.holds_lt, hi.behind, hi.past,
    (fun e' h' => by cases h'; exact ⟨he, ht⟩), hi.waiters, hi.joined_le, hi.late⟩

theorem Inv.advance (hf : h.filled = none) (ht : tombstoned w = true ∨ w.lease = none) :
    Inv w { h with epoch := h.epoch + 1 } where
  got_le o e he := Nat.le_succ_of_le (hi.got_le o e he)
  got_fresh := hi.got_fresh
  holds_lt := hi.holds_lt
  behind hb := by
    rcases ht with ht | hn
    · exact ht
    · simp [Fencing.behind, hn] at hb
  past := hi.past
  filled e he := by cases hf.symm.trans he
  waiters := hi.waiters
  joined_le k t := Nat.le_succ_of_le (hi.joined_le k t)
  late := hi.late

theorem Inv.filled_none (ht : tombstoned w = true) : h.filled = none := by
  cases hf : h.filled with
  | none => rfl
  | some e => cases (hi.filled e hf).2.symm.trans ht

end

/-! ## Statements -/

variable {N : Naming}

theorem Moves.of_eq (hf : w.fresh ≤ w'.fresh) (hl : w'.lease = w.lease) (hk : w'.flights = w.flights) : Moves w w' :=
  ⟨hf, fun l' hl' => .inl ⟨l', hl ▸ hl', rfl⟩, fun _ f' _ hf' ht => ⟨f', hk ▸ hf', rfl, ht⟩⟩

theorem moves_update (w : World) (u : Update) : Moves w (u.apply w).2 := by
  refine ⟨(u.beside w).fresh, ?_, fun k f' t hf' ht => ⟨f', (u.beside w).flights ▸ hf', rfl, ht⟩⟩
  have hsame : ∀ {w' : World}, w'.lease = w.lease → ∀ l' ∈ w'.lease, (∃ l ∈ w.lease, l.owner = l'.owner) ∨ w.fresh ≤ l'.owner :=
    fun hl l' hl' => .inl ⟨l', hl ▸ hl', rfl⟩
  cases u with
  | acquireLease =>
    simp only [Update.apply, acquireFillLease]
    split
    · rintro l' ⟨⟩
      exact .inr (le_rfl)
    · exact hsame rfl
  | releaseLease owner => exact fun l' hl' => .inl ⟨l', (filter_eq_some_iff.1 hl').1, rfl⟩
  | retire observed =>
    simp only [Update.apply, retireOriginObject]
    split
    · exact (by simp)
    · exact hsame rfl
  | publish side k etag body exp =>
    apply hsame
    simp only [Update.apply, publish]
    split
    · rfl
    · cases side <;> rfl
  | claim owner =>
    apply hsame
    simp only [Update.apply, claimPendingUploads]
    split
    · split <;> rfl
    · rfl
  | touch side retention => cases side <;> exact hsame rfl
  | remember info validated ttl =>
    apply hsame
    simp only [Update.apply, rememberOriginMetadata]
    split <;> rfl
  | _ => exact hsame rfl

def easyUpdate : Update → Bool
  | .publish .read (.fill _ _) _ _ _ => false
  | _ => true

theorem lifts_of_tombstoned (ht : tombstoned w' = true) : lifts w w' = false := by
  simp [lifts, ht]

theorem tombstoned_none (hr : w.rc = none) : tombstoned w = false := by
  simp [tombstoned, hr]

theorem tombstoned_publish (w : World) (etag : Text) (body : Body) (exp : Option Nat) :
    tombstoned (publish w .read .tombstone etag body exp).2 = true := by
  obtain ⟨row, hrow⟩ : ∃ row, publishedRow w .read .tombstone etag body exp = some row :=
    ⟨_, publishedRow_of_not_fill w (by simp)⟩
  rfl

variable {u : Update} {k : FlightKey} {s : Stmt} {etag version : Text} {exp : Option Nat} {owner : Nat} {r : s.Ans} {body : Body}

theorem step_update (hu : easyUpdate u = true) (hi : Inv w h) (hs : safe (w, h) (some t) (u.apply w).2 = true) :
    Inv (u.apply w).2 ((h.update t u (u.apply w).1).track (some t) w (u.apply w).2) ∧
      ∀ v, v ≠ t → Rely v (w, h) ((u.apply w).2, (h.update t u (u.apply w).1).track (some t) w (u.apply w).2) := by
  have hm := hi.move (moves_update w u) hs
  have hr : ∀ v, v ≠ t → Rely v (w, h) ((u.apply w).2, h.track (some t) w (u.apply w).2) :=
    fun v hv => .track hs fun he => hv (some.inj he).symm
  cases u with
  | acquireLease =>
    simp only [Update.apply, acquireFillLease] at hm hr ⊢
    split
    · next hl =>
      simp only [hl, if_true] at hm hr
      refine ⟨hm.hold (Nat.lt_succ_self _) (hi.got_fresh _ (le_rfl)), fun v hv => (hr v hv).trans ?_⟩
      exact ⟨fun o ho => (upd_ne _ _ hv).trans ho, fun _ => id, id⟩
    · next hl =>
      simp only [hl] at hm hr
      exact ⟨hm, hr⟩
  | publish side k etag body exp =>
    cases side with
    | write => exact ⟨hm, hr⟩
    | read =>
      cases k with
      | fill v owner => cases hu
      | tombstone =>
        obtain ⟨row, hrow⟩ : ∃ row, publishedRow w .read .tombstone etag body exp = some row :=
          ⟨_, publishedRow_of_not_fill w (by simp)⟩
        have ht := tombstoned_publish w etag body exp
        rw [publish_read w hrow] at ht
        rw [show (Update.publish .read .tombstone etag body exp).apply w = _ from publish_read w hrow] at hm hr ⊢
        have htrack : ∀ w', lifts w w' = false → Hist.track { h with past := t :: h.past } (some t) w w' =
            { h.track (some t) w w' with past := t :: (h.track (some t) w w').past } := by
          intro w' hl
          simp [Hist.track, hl]
        have hup : ∀ row, h.update t (.publish .read .tombstone etag body exp) (some row) = { h with past := t :: h.past } :=
          fun _ => rfl
        rw [hup, htrack _ (lifts_of_tombstoned ht)]
        exact ⟨hm.pass ht, fun v hv => (hr v hv).trans ⟨fun _ => id, fun _ => id, mem_cons_of_mem t⟩⟩
      | _ => exact ⟨hm, hr⟩
  | retire observed =>
    simp only [Update.apply, retireOriginObject] at hm hr ⊢
    split
    · next hc =>
      simp only [hc, and_self, if_true] at hm hr
      refine ⟨hm.advance rfl (.inr rfl), fun v hv => (hr v hv).trans ⟨fun _ => id, fun _ => id, id⟩⟩
    · next hc =>
      simp only [hc, if_false] at hm hr
      exact ⟨hm, hr⟩
  | _ => exact ⟨hm, hr⟩

def easy : Stmt → Bool
  | .db u | .attempt u => easyUpdate u
  | _ => true

theorem moves_enter (w : World) (t : Nat) (k : FlightKey) :
    (w.flights k = none ∧ w.enter t k = (true, { w with flights := fun k' => if k' = k then some ⟨t, []⟩ else w.flights k' })) ∨
      ∃ f, w.flights k = some f ∧ w.enter t k =
        (false, { w with flights := fun k' => if k' = k then some { f with waiters := t :: f.waiters } else w.flights k' }) := by
  cases hf : w.flights k with
  | none => exact .inl ⟨rfl, by simp [World.enter, hf]⟩
  | some f => exact .inr ⟨f, rfl, by simp [World.enter, hf]⟩

/-- Joining a flight: its leader has no answer yet, or one of the present epoch. -/
theorem step_join {r : Bool} (hi : Inv w h) (hx : (r, w') ∈ exec N t (.join k) w)
    (ha : (policy N).step t (.join k) (w, h) r) : Inv w' (h.join k t) := by
  have hle : ∀ k' u, (h.join k t).joined k' u ≤ h.epoch := by
    intro k' u
    simp only [Hist.join]
    split
    · exact le_rfl
    · exact hi.joined_le k' u
  have hx : (r, w') = w.enter t k := mem_singleton.1 hx
  have hold : ∀ k' f u e, w.flights k' = some f → u ∈ f.waiters → h.answered f.leader = some e → (h.join k t).joined k' u ≤ e := by
    intro k' f u e hf hu he
    simp only [Hist.join]
    split
    · next hk =>
      obtain ⟨rfl, rfl⟩ := hk
      have ha : ((w.flights k').all fun f => (h.answered f.leader).all (h.epoch ≤ ·)) = true := ha
      simpa [hf, he] using ha
    · exact hi.waiters k' f u e hf hu he
  rcases moves_enter w t k with ⟨hn, he⟩ | ⟨f, hf, he⟩
  · cases hx.trans he
    refine ⟨hi.got_le, hi.got_fresh, hi.holds_lt, hi.behind, hi.past, hi.filled, fun k' f u e hf' hu hans => ?_, hle, hi.late⟩
    simp only at hf'
    split at hf'
    · cases hf'
      cases hu
    · exact hold k' f u e hf' hu hans
  · cases hx.trans he
    refine ⟨hi.got_le, hi.got_fresh, hi.holds_lt, hi.behind, hi.past, hi.filled, fun k' f' u e hf' hu hans => ?_, hle, hi.late⟩
    simp only at hf'
    split at hf'
    · next hk =>
      subst hk
      cases hf'
      rcases mem_cons.1 hu with rfl | hu
      · have ha : ((w.flights k').all fun f => (h.answered f.leader).all (h.epoch ≤ ·)) = true := ha
        have hans : h.answered f.leader = some e := hans
        simpa [Hist.join, hf, hans] using ha
      · exact hold k' f u e hf hu hans
    · exact hold k' f' u e hf' hu hans

/-- A flight ends: its waiters have joined by the epoch of its leader's answer. -/
theorem step_finish {f : Fetched} (hi : Inv w h) : h.learn t w (.finish k f) () = h := by
  cases f with
  | row r =>
    have hno : (w.flights k).any (h.outruns k) = false := by
      cases hf : w.flights k with
      | none => rfl
      | some fl =>
        simp only [any_some, Hist.outruns]
        cases he : h.answered fl.leader with
        | none => rfl
        | some e =>
          simp only [any_some, List.any_eq_false, decide_eq_true_eq, not_lt]
          exact fun u hu => hi.waiters k fl u e hf hu he
    simp [Hist.learn, hno]
  | _ => rfl

theorem moves_stmt (hs : s.isUpdate = false) (hj : ∀ k, s ≠ .join k) (hx : (r, w') ∈ exec N t s w) :
    Moves w w' := by
  have hst := exec_sameStore hs hx
  have hof : w'.flights = w.flights → Moves w w' := .of_eq hst.fresh hst.lease
  cases s with
  | originUpload body pre conditional =>
    rcases mem_originUpload_cases hx with rfl | ⟨rfl, _⟩ <;> exact hof rfl
  | originDelete =>
    simp only [exec, mem_cons, not_mem_nil, or_false] at hx
    rcases hx with hx | hx | hx <;> cases hx <;> exact hof rfl
  | join k => exact absurd rfl (hj k)
  | finish k f =>
    refine ⟨hst.fresh, fun l' hl' => .inl ⟨l', hst.lease ▸ hl', rfl⟩, fun k' f' u hf' hu => ?_⟩
    have hw : w' = w.land k f := congrArg Prod.snd (mem_singleton.1 hx)
    simp only [hw, World.land] at hf'
    split at hf'
    · exact ⟨f', hf', rfl, hu⟩
    · simp only at hf'
      split at hf'
      · cases hf'
      · exact ⟨f', hf', rfl, hu⟩
  | wait =>
    refine ⟨hst.fresh, fun l' hl' => .inl ⟨l', hst.lease ▸ hl', rfl⟩, fun k' f' u hf' hu => ?_⟩
    rw [(mem_wait_cases hx).1] at hf'
    obtain ⟨f, hf, rfl⟩ := map_eq_some_iff.1 hf'
    exact ⟨f, hf, rfl, (mem_filter.1 hu).1⟩
  | db | attempt => cases hs
  | _ => exact hof (exec_beside rfl hx).flights

theorem lifts_of_rc (hr : w'.rc = w.rc) : lifts w w' = false := by
  simp [lifts, tombstoned, hr]

theorem Inv.track {u : Option Nat} (hi : Inv w' h) (hl : lifts w w' = false) : Inv w' (h.track u w w') := by
  refine ⟨hi.got_le, hi.got_fresh, hi.holds_lt, hi.behind, fun hp => hi.past ?_, fun e he => ?_, hi.waiters, hi.joined_le, hi.late⟩
  · simpa only [Hist.track, hl, Bool.false_eq_true, if_false] using hp
  · simp only [Hist.track] at he
    split at he
    · exact hi.filled e he
    · cases he

theorem Rely.still {u : Option Nat} (hl : lifts w w' = false) : Rely v (w, h) (w', h.track u w w') := by
  refine ⟨fun _ => id, fun _ => id, fun hp => ?_⟩
  simpa only [Hist.track, hl, Bool.false_eq_true, if_false] using hp

theorem step_stmt (hs : s.isUpdate = false) (hi : Inv w h) (hx : (r, w') ∈ exec N t s w) (ha : (policy N).step t s (w, h) r) :
    Inv w' ((observer N).step t s r w w' h) ∧ ∀ v, Rely v (w, h) (w', (observer N).step t s r w w' h) := by
  have hl : lifts w w' = false := lifts_of_rc (exec_sameStore hs hx).rc
  have hplain : (∀ k, s ≠ .join k) → ∀ {h' : Hist}, Inv w h' → (∀ v, Rely v (w, h) (w, h')) →
      Inv w' (h'.track (some t) w w') ∧ ∀ v, Rely v (w, h) (w', h'.track (some t) w w') := by
    intro hj h' hi' hr
    refine ⟨hi'.move (moves_stmt hs hj hx) (by simp [safe, hl]), fun v => ?_⟩
    have h1 := hr v
    have h2 : Rely v (w, h') (w', h'.track (some t) w w') := .still hl
    exact h1.trans h2
  have hid := fun hj => hplain hj hi fun v => .refl _
  cases s with
  | db | attempt => cases hs
  | originRead =>
    obtain ⟨hi', hr⟩ := hi.ask t
    exact hplain nofun hi' hr
  | join k =>
    have hi' := step_join hi hx ha
    refine ⟨hi'.track hl, fun v => ?_⟩
    have h1 : Rely v (w, h.join k t) (w', (h.join k t).track (some t) w w') := .still hl
    exact ⟨h1.holds, h1.got, h1.past⟩
  | finish k f =>
    have hf : h.learn t w (.finish k f) r = h := step_finish hi
    simp only [observer, hf]
    exact hid nofun
  | rows => exact hid nofun
  | _ => exact hid nofun

theorem safe_of_policy {a : u.Ans} : ((policy N).step t (.db u) (w, h) (some a) → safe (w, h) (some t) (u.apply w).2 = true) ∧
      ((policy N).step t (.attempt u) (w, h) (some a) → safe (w, h) (some t) (u.apply w).2 = true) := by
  refine ⟨id, fun ha => ?_⟩
  cases u with
  | publish side k etag body exp => cases side <;> cases k <;> exact ha
  | _ => exact ha

theorem step_easy (hs : easy s = true) (hi : Inv w h) (hx : (r, w') ∈ exec N t s w) (ha : (policy N).step t s (w, h) r) :
    Inv w' ((observer N).step t s r w w' h) ∧ ∀ v, v ≠ t → Rely v (w, h) (w', (observer N).step t s r w w' h) := by
  have hno : Inv w (h.track (some t) w w) ∧ ∀ v, v ≠ t → Rely v (w, h) (w, h.track (some t) w w) :=
    ⟨hi.track (lifts_of_rc rfl), fun v _ => .still (lifts_of_rc rfl)⟩
  cases s with
  | db u =>
    rcases execUpdate_cases hx with ⟨rfl, rfl⟩ | ⟨rfl, rfl, _⟩
    · exact hno
    · exact step_update hs hi (safe_of_policy.1 ha)
  | attempt u =>
    rcases execUpdate_cases hx with ⟨rfl, rfl⟩ | ⟨rfl, rfl, _⟩
    · exact hno
    · exact step_update hs hi (safe_of_policy.2 ha)
  | _ =>
    obtain ⟨hi', hr⟩ := step_stmt rfl hi hx ha
    exact ⟨hi', fun v _ => hr v⟩

/-- Updates that leave the read cache and the fill leases alone. -/
def calmUpdate : Update → Bool
  | .publish .write _ _ _ _ | .complete _ _ _ _ _ _ | .markCommitted _ _ _ | .abandon _ | .failPending _ _ _ _ | .clearPending
  | .clearToken _ | .claim _ => true
  | _ => false

def calm : Stmt → Bool
  | .db u | .attempt u => calmUpdate u
  | _ => true

theorem calm_easy (hs : calm s = true) : easy s = true := by
  have hu : ∀ {u : Update}, calmUpdate u = true → easyUpdate u = true := by
    intro u hu
    cases u with
    | publish side k etag body exp => cases side <;> first | rfl | cases hu
    | _ => rfl
  cases s with
  | db | attempt => exact hu hs
  | _ => rfl

theorem calmUpdate_rc (hu : calmUpdate u = true) (a : u.Ans) : (u.apply w).2.rc = w.rc ∧ h.update t u a = h := by
  cases u with
  | publish side k etag body exp =>
    cases side with
    | read => cases hu
    | write =>
      refine ⟨?_, rfl⟩
      simp only [Update.apply, publish]
      split <;> rfl
  | claim owner =>
    refine ⟨?_, rfl⟩
    simp only [Update.apply, claimPendingUploads]
    split
    · split <;> rfl
    · rfl
  | complete | markCommitted | abandon | failPending | clearPending | clearToken => exact ⟨rfl, rfl⟩
  | _ => cases hu

theorem step_calm (hs : calm s = true) (hi : Inv w h) (hx : (r, w') ∈ exec N t s w) (ha : (policy N).step t s (w, h) r) :
    Inv w' ((observer N).step t s r w w' h) ∧ ∀ v, Rely v (w, h) (w', (observer N).step t s r w w' h) := by
  refine ⟨(step_easy (calm_easy hs) hi hx ha).1, fun v => ?_⟩
  have hupd : ∀ {u : Update} {r : Option u.Ans}, calmUpdate u = true → (r, w') ∈ execUpdate t u w →
      w'.rc = w.rc ∧ (∀ a, h.update t u a = h) := by
    intro u r hu hx
    refine ⟨?_, fun a => (calmUpdate_rc (w := w) hu a).2⟩
    rcases execUpdate_cases hx with ⟨_, rfl⟩ | ⟨rfl, rfl, _⟩
    · rfl
    · exact (calmUpdate_rc (h := h) (t := t) hu (u.apply w).1).1
  cases s with
  | db u | attempt u =>
    obtain ⟨hrc, hh⟩ := hupd hs hx
    cases r with
    | none => exact .still (lifts_of_rc hrc)
    | some a =>
      simp only [observer, Hist.learn, hh]
      exact .still (lifts_of_rc hrc)
  | _ => exact (step_stmt rfl hi hx ha).2 v

theorem past_fence {a : Option Row} (hx : (some a, w') ∈ execUpdate t (.publish .read .tombstone etag body exp) w) :
    t ∈ ((h.update t (.publish .read .tombstone etag body exp) a).track (some t) w w').past := by
  rcases execUpdate_cases hx with ⟨h, _⟩ | ⟨ha, rfl, _⟩
  · cases h
  · obtain ⟨row, hrow⟩ : ∃ row, publishedRow w .read .tombstone etag body exp = some row :=
      ⟨_, publishedRow_of_not_fill w (by simp)⟩
    have ht : tombstoned ((Update.publish .read .tombstone etag body exp).apply w).2 = true := tombstoned_publish w etag body exp
    have ha : a = some row := (some.inj ha).trans (congrArg Prod.fst (publish_read w hrow))
    subst ha
    simp [Hist.track, lifts_of_tombstoned ht, Hist.update]

/-- A fill that can publish finds no tombstone, and its answer is of the present epoch. -/
theorem fill_current {row : Row} (hi : Inv w h)
    (hg : (h.got owner).isSome = true) (hrow : publishedRow w .read (.fill version owner) etag body exp = some row) :
    tombstoned w = false ∧ h.got owner = some h.epoch ∧ (versionOf row).isDeleted = false := by
  obtain ⟨hr, hleased, hexp⟩ := publishedRow_eq_some w hrow
  -- the row that the fill replaces has the fill's version
  have hfree : tombstoned w = false := by
    cases hrc : w.rc with
    | none => exact tombstoned_none hrc
    | some old => simp [tombstoned, hrc, versionOf, hexp _ rfl old hrc, CacheVersion.isDeleted]
  obtain ⟨e, he⟩ := isSome_iff_exists.1 hg
  have hnb : ¬ e < h.epoch := by
    intro hlt
    have hb : behind w h = true := by
      cases hlease : w.lease with
      | none => simp [PubKind.leased, hlease] at hleased
      | some l =>
        simp only [PubKind.leased, hlease, any_some, Bool.and_eq_true, beq_iff_eq] at hleased
        simp [behind, hlease, hleased.1, he, hlt]
    cases hfree.symm.trans (hi.behind hb)
  have hle := hi.got_le owner e he
  refine ⟨hfree, by rw [he, show e = h.epoch by omega], ?_⟩
  rw [hr]
  rfl

theorem step_fill {r : Option (Option Row)} (hi : Inv w h) (hg : (h.got owner).isSome = true)
    (hx : (r, w') ∈ exec N t (.db (.publish .read (.fill version owner) etag body exp)) w)
    (ha : (policy N).step t (.db (.publish .read (.fill version owner) etag body exp)) (w, h) r) :
    Inv w' ((observer N).step t (.db (.publish .read (.fill version owner) etag body exp)) r w w' h) ∧
      ∀ v, Rely v (w, h) (w', (observer N).step t (.db (.publish .read (.fill version owner) etag body exp)) r w w' h) := by
  have hno : Inv w (h.track (some t) w w) ∧ ∀ v, Rely v (w, h) (w, h.track (some t) w w) :=
    ⟨hi.track (lifts_of_rc rfl), fun v => .still (lifts_of_rc rfl)⟩
  rcases execUpdate_cases hx with ⟨rfl, rfl⟩ | ⟨rfl, rfl, _⟩
  · exact hno
  · cases hrow : publishedRow w .read (.fill version owner) etag body exp with
    | none =>
      have hpub : (Update.publish .read (.fill version owner) etag body exp).apply w = (none, w) := by
        simp [Update.apply, publish, hrow]
      rw [hpub]
      exact hno
    | some row =>
      obtain ⟨hfree, hcur, hd⟩ := fill_current hi hg hrow
      have hm := hi.move (moves_update w (.publish .read (.fill version owner) etag body exp)) ha
      rw [show (Update.publish .read (.fill version owner) etag body exp).apply w = _ from publish_read w hrow] at hm ⊢
      have hstep : ∀ w' : World, w'.rc = some row →
          (observer N).step t (.db (.publish .read (.fill version owner) etag body exp)) (some (some row)) w w' h =
            { h.track (some t) w w' with filled := some h.epoch } := by
        intro w' hw'
        simp [observer, Hist.learn, Hist.update, hcur, Hist.track, hw', hd]
      have hrely : ∀ v w', Rely v (w, h) (w', { h.track (some t) w w' with filled := some h.epoch }) := by
        intro v w'
        have hs : Rely v (w, h) (w', h.track (some t) w w') := .still (by simp [lifts, hfree])
        exact ⟨hs.holds, hs.got, hs.past⟩
      rw [hstep _ rfl]
      exact ⟨hm.fill (by simp [tombstoned, hd]) rfl, fun v => hrely v _⟩

end Fencing

end Pgvs3.Tier
