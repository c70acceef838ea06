import Pgvs3.Tier.Routine
/-!
# The outbox and the pending row

A pending write-back row and its outbox entry are written and committed or abandoned together. Three
steps touch the outbox alone: `ClearPendingUploads` after a write-through PUT or a delete, and
`ClearPendingUploadToken` of a flush that finds another version. A request that has replaced the row
and not yet cleared the outbox is a debtor (`Hist`).

`ClearPendingUploads` has no token guard and no lock in `DeleteMany`, and a write-through PUT whose
publication fails runs it all the same (`failed_publication_unpaired`): a run has to be one in which
it finds no pending row, and fails only with an empty outbox.
-/

namespace Pgvs3.Tier

open Conc Sys Option Tier Outline

def World.pendingToken (w : World) : Option Nat :=
  w.wb.bind fun r => match versionOf r with
    | .pending n => some n
    | _ => none

variable {T : Nat} {w : World}

theorem World.pendingToken_eq_some : w.pendingToken = some T ↔ ∃ r, w.wb = some r ∧ versionOf r = .pending T := by
  simp only [pendingToken, bind_eq_some_iff]
  constructor
  · rintro ⟨r, hr, hv⟩
    split at hv
    · next n hn => exact ⟨r, hr, by rw [hn, some.inj hv]⟩
    · cases hv
  · rintro ⟨r, hr, hv⟩
    exact ⟨r, hr, by rw [hv]⟩

def World.entryToken (w : World) : Option Nat := w.outbox.map (·.token)

/-- The row is pending under `T` exactly when the outbox has `T`. -/
def Paired (w : World) : Prop := ∀ T, w.pendingToken = some T ↔ w.entryToken = some T

namespace Pairing

/-- The requests that owe the outbox a clearing. -/
abbrev Hist := Nat → Bool

def observer (N : Naming) : Observer (sys N) Hist where
  step t s r _ _ h :=
    match s, r with
    | .db (.publish .write k _ _ _), some (some _) => if k = .pending then h else upd h t true
    | .db (.publish .read .tombstone _ _ _), none => upd h t false
    | .attempt .clearPending, _ => upd h t false
    | _, _ => h
  env _ _ _ h := h
  done _ _ _ h := h

/-- Every request of the tier; the write-back namespace is not swept. -/
def everyRun (N : Naming) : (observer N).sys.Policy where
  spawn _ _ p := IsRequest N p
  step _ _ _ _ := True
  env e _ := e.sweeps .write = false

/-- The outbox is cleared only where no row is pending, and only an empty one is left uncleared. -/
def policy (N : Naming) : (observer N).sys.Policy where
  spawn _ _ p := IsRequest N p
  step _ s w r :=
    match s, r with
    | .attempt .clearPending, some _ => w.1.pendingToken = none
    | .attempt .clearPending, none => w.1.outbox = none
    | .db (.publish .read .tombstone _ _ _), none => w.1.outbox = none
    | _, _ => True
  env e _ := e.sweeps .write = false

structure Inv (w : World) (h : Hist) : Prop where
  /-- A pending row has its entry. -/
  row : ∀ T, w.pendingToken = some T → w.entryToken = some T
  /-- An entry without its row is owed a clearing. -/
  entry : ∀ T, w.entryToken = some T → w.pendingToken = some T ∨ ∃ t, h t = true
  /-- Tokens in use were drawn from the counter. -/
  below : ∀ T, w.entryToken = some T → T < w.fresh

/-- Old tokens do not come back to the row, and a request's debt is its own. -/
structure Guar (u : Option Nat) (w w' : World × Hist) : Prop where
  fresh : w.1.fresh ≤ w'.1.fresh
  token : ∀ T, T < w.1.fresh → w'.1.pendingToken = some T → w.1.pendingToken = some T
  debt : ∀ v, u ≠ some v → w'.2 v = w.2 v

def outline (N : Naming) : Outline (observer N).sys where
  inv w := Inv w.1 w.2
  guar := Guar
  idle t w := w.2 t = false
  post t _ w := w.2 t = false

abbrev Shows (N : Naming) (t : Nat) {α : Type} (p : Req α) (P : World × Hist → Prop) (Q : α → World × Hist → Prop) : Prop :=
  (outline N).Meets (policy N) t p P Q

/-! ## Tokens -/

variable {w' : World} {h h' : Hist} {t : Nat}

theorem Inv.same (hi : Inv w h) (hf : w.fresh ≤ w'.fresh) (hp : w'.pendingToken = w.pendingToken)
    (ho : w'.entryToken = w.entryToken) : Inv w' h := by
  refine ⟨fun T hT => ?_, fun T hT => ?_, fun T hT => ?_⟩
  · rw [ho]
    exact hi.row T (hp ▸ hT)
  · rw [hp]
    exact hi.entry T (ho ▸ hT)
  · exact Nat.lt_of_lt_of_le (hi.below T (ho ▸ hT)) hf

theorem Inv.issue (hf : w'.fresh = w.fresh + 1) (hp : w'.pendingToken = some w.fresh) (ho : w'.entryToken = some w.fresh) : Inv w' h := by
  refine ⟨fun T hT => ?_, fun T hT => .inl ?_, fun T hT => ?_⟩
  · rw [ho, ← hp, hT]
  · rw [hp, ← ho, hT]
  · rw [ho] at hT
    cases hT
    omega

theorem Inv.owe (hi : Inv w h) (hf : w.fresh ≤ w'.fresh) (hp : w'.pendingToken = none)
    (ho : w'.entryToken = w.entryToken) (ht : h' t = true) : Inv w' h' := by
  refine ⟨fun T hT => ?_, fun T _ => .inr ⟨t, ht⟩, fun T hT => ?_⟩
  · rw [hp] at hT
    cases hT
  · exact Nat.lt_of_lt_of_le (hi.below T (ho ▸ hT)) hf

theorem Inv.clear (hp : w.pendingToken = none) (ho : w.entryToken = none) : Inv w h := by
  refine ⟨fun T hT => ?_, fun T hT => ?_, fun T hT => ?_⟩
  · rw [hp] at hT; cases hT
  · rw [ho] at hT; cases hT
  · rw [ho] at hT; cases hT

theorem Inv.no_row (hi : Inv w h) (ho : w.entryToken = none) : w.pendingToken = none := by
  rw [eq_none_iff_forall_ne_some]
  intro T hT
  cases ho.symm.trans (hi.row T hT)

theorem Inv.settle (hi : Inv w h) (hf : w'.fresh = w.fresh)
    (hp : w'.pendingToken = w.pendingToken.filter (· != T)) (ho : w'.entryToken = w.entryToken.filter (· != T)) :
    Inv w' h := by
  refine ⟨fun T' hT => ?_, fun T' hT => ?_, fun T' hT => ?_⟩
  · rw [hp, filter_eq_some_iff] at hT
    rw [ho, filter_eq_some_iff]
    exact ⟨hi.row T' hT.1, hT.2⟩
  · rw [ho, filter_eq_some_iff] at hT
    rw [hp, filter_eq_some_iff]
    exact (hi.entry T' hT.1).imp_left fun h => ⟨h, hT.2⟩
  · rw [ho, filter_eq_some_iff] at hT
    rw [hf]
    exact hi.below T' hT.1

theorem entryToken_dropToken (w : World) (T : Nat) :
    ({ w with outbox := dropToken w T } : World).entryToken = w.entryToken.filter (· != T) := by
  cases ho : w.outbox with
  | none => simp [World.entryToken, dropToken, ho]
  | some e => by_cases hT : e.token = T <;> simp [World.entryToken, dropToken, ho, hT, filter_some]

theorem filter_pendingToken (hp : w.pendingToken ≠ some T) : w.pendingToken.filter (· != T) = w.pendingToken := by
  cases hT : w.pendingToken with
  | none => rfl
  | some T' =>
    have : T' ≠ T := fun he => hp (he ▸ hT)
    simp [filter_some, this]

theorem pendingToken_mark (w : World) (T : Nat) (v : Text) (exp : Nat) :
    (markOriginCommitted w T v exp).2.pendingToken = w.pendingToken.filter (· != T) := by
  cases hr : w.wb with
  | none => simp [World.pendingToken, markOriginCommitted, hr]
  | some r =>
    by_cases hv : versionOf r = .pending T
    · simp [World.pendingToken, markOriginCommitted, hr, hv, filter_some]
    · rw [filter_pendingToken]
      · simp [World.pendingToken, markOriginCommitted, hr, hv]
      · simp [World.pendingToken_eq_some, hr, hv]

theorem pendingToken_abandon (w : World) (T : Nat) : (abandonPendingUpload w T).pendingToken = w.pendingToken.filter (· != T) := by
  cases hr : w.wb with
  | none => simp [World.pendingToken, abandonPendingUpload, hr]
  | some r =>
    by_cases hv : versionOf r = .pending T
    · simp [World.pendingToken, abandonPendingUpload, hr, hv, filter_some]
    · rw [filter_pendingToken]
      · simp [World.pendingToken, abandonPendingUpload, hr, hv, filter_some]
      · simp [World.pendingToken_eq_some, hr, hv]

variable {s : Stmt} {etag base : Text} {exp owner : Option Nat} {missing : Bool}

/-! ## Statements -/

variable {N : Naming} {body : Body}

def calmUpdate : Update → Bool
  | .publish .write _ _ _ _ | .complete _ _ _ _ _ _ | .markCommitted _ _ _ | .abandon _ | .clearPending | .clearToken _ =>
    false
  | _ => true

/-- Statements that leave both tokens and all debts alone. -/
def Calm : Stmt → Bool
  | .db (.publish .read .tombstone _ _ _) => false
  | .db u | .attempt u => calmUpdate u
  | _ => true

theorem calmUpdate_tokens {u : Update} (hc : calmUpdate u = true) :
    (u.apply w).2.pendingToken = w.pendingToken ∧ (u.apply w).2.entryToken = w.entryToken := by
  cases u with
  | publish side k etag body exp =>
    cases side with
    | write => cases hc
    | read =>
      simp only [Update.apply, publish]
      split
      · exact ⟨rfl, rfl⟩
      · exact ⟨rfl, by simp [World.entryToken]⟩
  | complete | markCommitted | abandon | clearPending | clearToken => cases hc
  | failPending T owner attempt permanent =>
    refine ⟨rfl, ?_⟩
    cases ho : w.outbox with
    | none => simp [World.entryToken, Update.apply, failPending, ho]
    | some e =>
      simp only [World.entryToken, Update.apply, failPending, ho, map_some]
      split <;> rfl
  | claim owner =>
    simp only [Update.apply, claimPendingUploads]
    split
    · next e he =>
      split
      · exact ⟨rfl, by simp [World.entryToken, he]⟩
      · exact ⟨rfl, rfl⟩
    · exact ⟨rfl, rfl⟩
  | retire observed =>
    simp only [Update.apply, retireOriginObject]
    split
    · next hr =>
      -- the retired row has a live version, so nothing pending goes
      refine ⟨?_, rfl⟩
      obtain ⟨hl, hs⟩ := hr
      cases hw : w.wb with
      | none => simp [World.pendingToken, hw]
      | some r =>
        simp only [hw, any_some, sameRow, Bool.and_eq_true, beq_iff_eq] at hs
        rw [← hs.1.1.1] at hl
        cases hv : versionOf r with
        | pending n => rw [hv] at hl; cases hl
        | live | deleted => simp [World.pendingToken, hw, hv]
    · exact ⟨rfl, rfl⟩
  | touch side retention =>
    cases side with
    | read => exact ⟨rfl, rfl⟩
    | write =>
      refine ⟨?_, rfl⟩
      cases hw : w.wb with
      | none => simp [World.pendingToken, Update.apply, touchNamespaceObject, World.setRow, World.row, hw]
      | some r => simp [World.pendingToken, Update.apply, touchNamespaceObject, World.setRow, World.row, hw, versionOf]
  | acquireLease =>
    simp only [Update.apply, acquireFillLease]
    split <;> exact ⟨rfl, rfl⟩
  | remember info validated ttl =>
    simp only [Update.apply, rememberOriginMetadata]
    split <;> exact ⟨rfl, rfl⟩
  | _ => exact ⟨rfl, rfl⟩

theorem guar_token (hf : w.fresh ≤ w'.fresh) (hp : w'.pendingToken = w.pendingToken) {u : Option Nat} : Guar u (w, h) (w', h) :=
  ⟨hf, fun T _ hT => by rw [← hp]; exact hT, fun _ _ => rfl⟩

theorem step_calm (hc : Calm s = true) (hi : Inv w h) {r : s.Ans} (hx : (r, w') ∈ exec N t s w) :
    (observer N).step t s r w w' h = h ∧ Inv w' h ∧ Guar (some t) (w, h) (w', h) := by
  have hupd : ∀ {u : Update} {r : Option u.Ans}, calmUpdate u = true → (r, w') ∈ execUpdate t u w →
      Inv w' h ∧ Guar (some t) (w, h) (w', h) := by
    intro u r hu hm
    rcases execUpdate_cases hm with ⟨_, rfl⟩ | ⟨_, rfl, _⟩
    · exact ⟨hi, guar_token (le_rfl) rfl⟩
    · obtain ⟨hp, ho⟩ := calmUpdate_tokens hu
      exact ⟨hi.same (u.beside w).fresh hp ho, guar_token (u.beside w).fresh hp⟩
  cases s with
  | db u =>
    have hu : calmUpdate u = true := by
      cases u with
      | publish side k etag body exp => cases side <;> first | rfl | cases hc
      | _ => first | rfl | cases hc
    refine ⟨?_, hupd hu hx⟩
    cases u with
    | publish side k etag body exp =>
      cases side with
      | write => cases hc
      | read => cases k <;> first | rfl | cases hc
    | _ => rfl
  | attempt u =>
    refine ⟨?_, hupd hc hx⟩
    cases u <;> first | rfl | cases hc
  | _ =>
    have hsame := exec_sameStore rfl hx
    have hp : w'.pendingToken = w.pendingToken := by rw [World.pendingToken, hsame.wb, World.pendingToken]
    have ho : w'.entryToken = w.entryToken := by rw [World.entryToken, hsame.outbox, World.entryToken]
    exact ⟨rfl, hi.same hsame.fresh hp ho, guar_token hsame.fresh hp⟩

theorem calm_of_quiet (s : Stmt) (hq : s.quiet = true) : Calm s = true := by
  cases s <;> first | rfl | cases hq

theorem calm_of_reads (s : Stmt) (hr : s.reads = true) : Calm s = true := by
  cases s with
  | db u =>
    cases u with
    | publish side k etag body exp => cases side <;> cases k <;> first | rfl | cases hr
    | _ => first | rfl | cases hr
  | attempt u => cases u <;> first | rfl | cases hr
  | _ => rfl

theorem guar_debt {d : Bool} (hf : w.fresh ≤ w'.fresh) (hp : ∀ T, T < w.fresh → w'.pendingToken = some T → w.pendingToken = some T) :
    Guar (some t) (w, h) (w', upd h t d) :=
  ⟨hf, hp, fun v hv => upd_ne _ _ fun he => hv (by rw [he])⟩

theorem step_publish (hi : Inv w h) {k : PubKind} {r : Option (Option Row)}
    (hx : (r, w') ∈ execUpdate t (.publish .write k etag body exp) w) :
    Inv w' ((observer N).step t (.db (.publish .write k etag body exp)) r w w' h) ∧
      Guar (some t) (w, h) (w', (observer N).step t (.db (.publish .write k etag body exp)) r w w' h) ∧
      (k = .pending ∨ r = none → (observer N).step t (.db (.publish .write k etag body exp)) r w w' h = h) := by
  rcases execUpdate_cases hx with ⟨rfl, rfl⟩ | ⟨rfl, rfl, _⟩
  · exact ⟨hi, guar_token (le_rfl) rfl, fun _ => rfl⟩
  · cases hr : publishedRow w .write k etag body exp with
    | none =>
      simp only [Update.apply, publish, hr, observer]
      exact ⟨hi, guar_token (le_rfl) rfl, fun _ => trivial⟩
    | some row =>
      obtain ⟨hrow, _, _⟩ := publishedRow_eq_some w hr
      simp only [Update.apply, publish, hr, observer]
      by_cases hk : k = .pending
      · subst hk
        have hp : ∀ w' : World, w'.wb = some row → w'.pendingToken = some w.fresh := fun w' hw =>
          World.pendingToken_eq_some.2 ⟨row, hw, by rw [hrow]; rfl⟩
        refine ⟨Inv.issue rfl (hp _ rfl) rfl, ⟨Nat.le_succ _, fun T hT hp' => ?_, fun _ _ => rfl⟩, fun _ => rfl⟩
        rw [hp _ rfl] at hp'
        cases hp'
        exact absurd hT (Nat.lt_irrefl _)
      · have hp : ∀ w' : World, w'.wb = some row → w'.pendingToken = none := fun w' hw => by
          rw [eq_none_iff_forall_ne_some]
          intro T hT
          obtain ⟨r', hr', hv⟩ := World.pendingToken_eq_some.1 hT
          cases hw.symm.trans hr'
          rw [hrow] at hv
          cases k <;> first | exact absurd rfl hk | cases hv
        simp only [hk, if_false]
        refine ⟨hi.owe (Nat.le_succ _) (hp _ rfl) (by simp [World.entryToken]) (upd_self h t true), guar_debt (Nat.le_succ _) ?_, ?_⟩
        · intro T _ hT
          rw [hp _ rfl] at hT
          cases hT
        · rintro (hk' | hr')
          · exact hk'.elim
          · cases hr'

theorem step_complete (hi : Inv w h) {r : Option Entry} (hx : (r, w') ∈ execUpdate t (.complete etag body exp base missing owner) w) :
    Inv w' h ∧ Guar (some t) (w, h) (w', h) ∧ ∀ e, r = some e → e.token < w'.fresh := by
  rcases execUpdate_cases hx with ⟨rfl, rfl⟩ | ⟨rfl, rfl, _⟩
  · exact ⟨hi, guar_token (le_rfl) rfl, nofun⟩
  · refine ⟨Inv.issue rfl rfl rfl, ⟨Nat.le_succ _, fun T hT hp => ?_, fun _ _ => rfl⟩, ?_⟩
    · cases hp
      exact absurd hT (Nat.lt_irrefl _)
    · rintro e ⟨⟩
      exact Nat.lt_succ_self _

theorem guar_settle (hf : w'.fresh = w.fresh) (hp : w'.pendingToken = w.pendingToken.filter (· != T)) : Guar (some t) (w, h) (w', h) := by
  refine ⟨hf.ge, fun T' _ hT => ?_, fun _ _ => rfl⟩
  rw [hp, filter_eq_some_iff] at hT
  exact hT.1

theorem step_mark (hi : Inv w h) {v : Text} {exp : Nat} {r : Option Bool}
    (hx : (r, w') ∈ execUpdate t (.markCommitted T v exp) w) : Inv w' h ∧ Guar (some t) (w, h) (w', h) := by
  rcases execUpdate_cases hx with ⟨_, rfl⟩ | ⟨_, rfl, _⟩
  · exact ⟨hi, guar_token (le_rfl) rfl⟩
  · have hp := pendingToken_mark w T v exp
    exact ⟨hi.settle rfl hp (entryToken_dropToken w T), guar_settle rfl hp⟩

variable {r : Option Unit}

theorem step_abandon (hi : Inv w h) (hx : (r, w') ∈ execUpdate t (.abandon T) w) : Inv w' h ∧ Guar (some t) (w, h) (w', h) := by
  rcases execUpdate_cases hx with ⟨_, rfl⟩ | ⟨_, rfl, _⟩
  · exact ⟨hi, guar_token (le_rfl) rfl⟩
  · have hp := pendingToken_abandon w T
    exact ⟨hi.settle rfl hp (entryToken_dropToken w T), guar_settle rfl hp⟩

theorem step_clearToken (hi : Inv w h) (hT : w.pendingToken ≠ some T)
    (hx : (r, w') ∈ execUpdate t (.clearToken T) w) : Inv w' h ∧ Guar (some t) (w, h) (w', h) := by
  rcases execUpdate_cases hx with ⟨_, rfl⟩ | ⟨_, rfl, _⟩
  · exact ⟨hi, guar_token (le_rfl) rfl⟩
  · have hp : (clearPendingUploadToken w T).pendingToken = w.pendingToken.filter (· != T) := (filter_pendingToken hT).symm
    exact ⟨hi.settle rfl hp (entryToken_dropToken w T), guar_settle rfl hp⟩

theorem step_clear (hi : Inv w h) (hx : (r, w') ∈ execUpdate t .clearPending w)
    (ha : (policy N).step t (.attempt .clearPending) (w, h) r) :
    Inv w' (upd h t false) ∧ Guar (some t) (w, h) (w', upd h t false) := by
  rcases execUpdate_cases hx with ⟨rfl, rfl⟩ | ⟨rfl, rfl, _⟩
  · have ho : w'.entryToken = none := congrArg (Option.map Entry.token) ha
    have hp := hi.no_row ho
    exact ⟨Inv.clear hp ho, guar_debt (le_rfl) fun _ _ hT => hT⟩
  · have hp : w.pendingToken = none := ha
    exact ⟨Inv.clear hp rfl, guar_debt (le_rfl) fun _ _ hT => hT⟩

theorem step_fence (hi : Inv w h) {r : Option (Option Row)} (hx : (r, w') ∈ execUpdate t (.publish .read .tombstone etag body exp) w)
    (ha : (policy N).step t (.db (.publish .read .tombstone etag body exp)) (w, h) r) :
    Inv w' ((observer N).step t (.db (.publish .read .tombstone etag body exp)) r w w' h) ∧
      Guar (some t) (w, h) (w', (observer N).step t (.db (.publish .read .tombstone etag body exp)) r w w' h) ∧
      (r = none → (observer N).step t (.db (.publish .read .tombstone etag body exp)) r w w' h t = false) := by
  rcases execUpdate_cases hx with ⟨rfl, rfl⟩ | ⟨rfl, rfl, _⟩
  · have ho : w'.entryToken = none := congrArg (Option.map Entry.token) ha
    have hp := hi.no_row ho
    exact ⟨Inv.clear hp ho, guar_debt (le_rfl) fun _ _ hT => hT, fun _ => upd_self h t false⟩
  · obtain ⟨hp, ho⟩ := calmUpdate_tokens (w := w) (u := .publish .read .tombstone etag body exp) rfl
    have hf := (Update.beside w (.publish .read .tombstone etag body exp)).fresh
    exact ⟨hi.same hf hp ho, guar_token hf hp, nofun⟩

/-! ## Requests -/

variable {g : Gateway} {α : Type}

def Clear (t : Nat) (w : World × Hist) : Prop := w.2 t = false

theorem stable_clear : (outline N).Stable t (Clear t) := fun _ _ _ hu _ _ hg h => (hg.debt t hu).trans h

variable {P : World × Hist → Prop} {p : Req Res} {f : s.Ans → Req α} {Q : α → World × Hist → Prop}

theorem meets_calm (hc : Calm s = true) (P' : s.Ans → World × Hist → Prop) (hs : ∀ r, (outline N).Stable t (P' r))
    (hx : ∀ w h r w', P (w, h) → (r, w') ∈ exec N t s w → Guar (some t) (w, h) (w', h) → P' r (w', h))
    (hk : ∀ r, Shows N t (f r) (P' r) Q) :
    Shows N t (ask s >>= f) P Q := by
  refine Meets.observed (Ω := outline N) P' hs (fun w h hi hP r w' he _ => ?_) hk
  obtain ⟨hh, hi', hg⟩ := step_calm hc hi he
  rw [hh]
  exact ⟨hi', hg, hx w h r w' hP he hg⟩

theorem meets_keep {p : Req α} (hp : Asks Calm p) (hs : (outline N).Stable t P)
    (hP : ∀ w h w', Guar (some t) (w, h) (w', h) → P (w, h) → P (w', h)) :
    Shows N t p P fun _ => P := by
  refine Meets.observed_all (Ω := outline N) hs (fun s hs w h hi hw r w' he _ => ?_) hp
  obtain ⟨hh, hi', hg⟩ := step_calm hs hi he
  rw [hh]
  exact ⟨hi', hg, hP w h w' hg hw⟩

theorem meets_clear {p : Req α} (hp : Asks Calm p) : Shows N t p (Clear t) fun _ => Clear t :=
  meets_keep hp stable_clear fun _ _ _ _ hw => hw

theorem meets_any {p : Req α} (hp : Asks Calm p) : Shows N t p (fun _ => True) fun _ _ => True :=
  meets_keep hp stable_true fun _ _ _ _ _ => trivial

theorem meets_ret {a : α} : Shows N t (pure a) P fun _ => P :=
  fun _ _ hw => hw

theorem meets_pass (hc : Calm s = true) (hk : ∀ r, Shows N t (f r) (Clear t) Q) : Shows N t (ask s >>= f) (Clear t) Q :=
  meets_calm hc (fun _ => Clear t) (fun _ => stable_clear) (fun _ _ _ _ hw _ _ => hw) hk

theorem fenceReadCache_calm : Asks Calm (fenceReadCache N) := .stmt rfl fun _ => .stmt rfl fun _ => trivial

theorem routine (hs : (outline N).Stable t P) (hP : ∀ w h w', Guar (some t) (w, h) (w', h) → P (w, h) → P (w', h))
    (hc : ∀ w, P w → Clear t w) : Routine (outline N) (policy N) t P fun _ => Clear t where
  before hp := meets_keep (hp.mono calm_of_quiet) hs hP
  after _ _ _ hp := meets_clear (hp.mono calm_of_quiet)
  refused w hw := ⟨hc w hw, hc w hw, hc w hw⟩

theorem routine_clear : Routine (outline N) (policy N) t (Clear t) fun _ => Clear t :=
  routine stable_clear (fun _ _ _ _ hw => hw) fun _ hw => hw

/-- A publication of a pending body leaves no debt; any other may. -/
theorem meets_storeSpooled (k : PubKind) (body : Body) : Shows N t (storeSpooled N g k body) (Clear t)
      fun r w => k = .pending ∨ r = none → Clear t w := by
  refine meets_pass rfl fun now => ?_
  refine Meets.observed (Ω := outline N) (fun r w => k = .pending ∨ r = none → Clear t w) (fun r => ?_)
    (fun w h hi hw r w' he _ => ?_) fun r _ _ hw => hw
  · exact fun u w w' hu hi hi' hg h hk => stable_clear u w w' hu hi hi' hg (h hk)
  · obtain ⟨hi', hg, hh⟩ := step_publish hi he
    refine ⟨hi', hg, fun hk => ?_⟩
    rw [hh hk]
    exact hw

theorem meets_clearPending {f : Option Unit → Req α} (hk : ∀ r, Shows N t (f r) (Clear t) Q) :
    Shows N t (ask (.attempt .clearPending) >>= f) P Q := by
  refine Meets.observed (Ω := outline N) (fun _ => Clear t) (fun _ => stable_clear) (fun w h hi _ r w' he ha => ?_) hk
  obtain ⟨hi', hg⟩ := step_clear hi he ha
  exact ⟨hi', hg, upd_self h t false⟩

theorem meets_uploadPending (body : Body) : Shows N t (uploadPending N g body) (Clear t) fun _ => Clear t := by
  refine (meets_storeSpooled .pending body).bind fun m => ?_
  refine Meets.pre (fun w _ h => h (.inl rfl)) ?_
  split
  · exact (meets_clear fenceReadCache_calm).bind fun _ => meets_ret
  · exact meets_ret

theorem meets_uploadThrough (body : Body) (pre : Precondition) : Shows N t (uploadThrough N g body pre) (Clear t) fun _ => Clear t := by
  refine meets_pass rfl fun a => ?_
  split
  · exact meets_ret
  · exact meets_ret
  · exact meets_ret
  · refine (meets_storeSpooled _ body).bind fun m => ?_
    refine Meets.pre (fun _ _ _ => trivial) ((meets_any fenceReadCache_calm).bind fun _ => ?_)
    refine meets_clearPending fun _ => ?_
    split <;> exact meets_ret

/-- The tombstone makes a debt, the fence keeps it unless it fails, the clearing pays it. -/
theorem meets_deleteRows (now : Nat) : Shows N t (deleteRows N now) (Clear t) fun _ => Clear t := by
  refine Meets.observed (Ω := outline N) (fun r w => r = none → Clear t w)
    (fun r u w w' hu hi hi' hg h hr => stable_clear u w w' hu hi hi' hg (h hr)) (fun w h hi hw r w' he _ => ?_) fun r => ?_
  · obtain ⟨hi', hg, hh⟩ := step_publish hi he
    exact ⟨hi', hg, fun hr => (congrFun (hh (.inr hr)) t).trans hw⟩
  · split
    · exact fun _ _ hw => hw rfl
    · refine meets_calm rfl (fun _ _ => True) (fun _ => stable_true) (fun _ _ _ _ _ _ _ => trivial) fun now => ?_
      refine Meets.observed (Ω := outline N) (fun r w => r = none → Clear t w)
        (fun r u w w' hu hi hi' hg h hr => stable_clear u w w' hu hi hi' hg (h hr)) (fun w h hi hw r w' he ha => ?_) fun r => ?_
      · exact step_fence hi he ha
      · split
        · exact fun _ _ hw => hw rfl
        · exact meets_clearPending fun _ => meets_ret

theorem meets_deleteLocked : Shows N t (deleteLocked N) (Clear t) fun _ => Clear t := by
  refine meets_pass rfl fun b => ?_
  split
  · exact meets_pass rfl meets_deleteRows
  · exact meets_ret

/-! ## Flushes -/

/-- The request owes nothing, and the token is an old one. -/
def Holding (t T : Nat) (w : World × Hist) : Prop := Clear t w ∧ T < w.1.fresh

theorem stable_holding (T : Nat) : (outline N).Stable t (Holding t T) :=
  fun u w w' hu hi hi' hg h => ⟨stable_clear u w w' hu hi hi' hg h.1, Nat.lt_of_lt_of_le h.2 hg.fresh⟩

theorem Holding.own (w : World) (h : Hist) (w' : World) (hg : Guar (some t) (w, h) (w', h))
    (hw : Holding t T (w, h)) : Holding t T (w', h) :=
  ⟨hw.1, Nat.lt_of_lt_of_le hw.2 hg.fresh⟩

theorem meets_settle (hP : ∀ w, P w → Clear t w) (hx : ∀ w h, Inv w h → P (w, h) → ∀ r w', (r, w') ∈ exec N t s w →
      (observer N).step t s r w w' h = h ∧ Inv w' h ∧ Guar (some t) (w, h) (w', h))
    (hf : ∀ r, Asks Calm (f r)) : Shows N t (ask s >>= f) P fun _ => Clear t := by
  refine Meets.observed (Ω := outline N) (fun _ => Clear t) (fun _ => stable_clear)
    (fun w h hi hw r w' he _ => ?_) fun r => meets_clear (hf r)
  obtain ⟨hh, hi', hg⟩ := hx w h hi hw r w' he
  rw [hh]
  exact ⟨hi', hg, hP (w, h) hw⟩

theorem meets_flush (p : Entry) (owner : Nat) : Shows N t (flushOneNoLock g p owner) (Holding t p.token) fun _ => Clear t := by
  have hrest : ∀ {s : Stmt} {a : Res}, Calm s = true → Asks Calm (ask s >>= fun _ => pure a) :=
    fun hs => .stmt hs fun _ => trivial
  have hclear : ∀ {P : World × Hist → Prop} {q : Req Res}, (∀ w, P w → Clear t w) → Asks Calm q → Shows N t q P fun _ => Clear t :=
    fun hP hq => Meets.pre (fun w _ hw => hP w hw) (meets_clear hq)
  refine meets_calm rfl (fun r w => Holding t p.token w ∧ ∀ s sm, r = some s → liveRow s.wb s.now = some sm →
      versionOf sm ≠ .pending p.token → w.1.pendingToken ≠ some p.token) ?_ ?_ fun r => ?_
  · intro r u w w' hu hi hi' hg h
    exact ⟨stable_holding _ u w w' hu hi hi' hg h.1, fun s sm hr hs hv hT => h.2 s sm hr hs hv (hg.token _ h.1.2 hT)⟩
  · intro w h r w' hw hm hg
    refine ⟨Holding.own w h w' hg hw, fun s sm hr hs hv hT => ?_⟩
    subst hr
    -- the row read is the row of the world
    rcases List.mem_cons.1 hm with hm | hm
    · cases hm
      obtain ⟨r, hr, hv'⟩ := World.pendingToken_eq_some.1 hT
      have hr' : w.wb = some sm := (filter_eq_some_iff.1 hs).1
      cases hr.symm.trans hr'
      exact hv hv'
    · cases List.mem_singleton.1 hm
  · split
    · exact fun _ _ hw => hw.1.1
    · next s =>
      split
      · exact hclear (fun w hw => hw.1.1) (hrest rfl)
      · next sm hs =>
        split
        · next hv =>
          refine meets_settle (fun w hw => hw.1.1) (fun w h hi hw r w' he => ⟨rfl, ?_⟩) fun _ => trivial
          exact step_clearToken hi (hw.2 s sm rfl hs hv) he
        · refine meets_calm rfl (fun _ => Clear t) (fun _ => stable_clear) (fun _ _ _ _ hw _ _ => hw.1.1) fun a => ?_
          split
          · refine meets_settle (fun _ hw => hw) (fun w h hi _ r w' he => ⟨rfl, step_abandon hi he⟩) fun _ => hrest rfl
          · exact meets_clear (hrest rfl)
          · exact meets_clear (hrest rfl)
          · refine meets_pass rfl fun now => ?_
            refine meets_settle (fun _ hw => hw) (fun w h hi _ r w' he => ⟨rfl, step_mark hi he⟩) fun r => ?_
            split
            · exact hrest rfl
            · split <;> trivial

theorem meets_runPendingOnce (owner : Nat) : Shows N t (runPendingOnce g owner) (Clear t) fun _ => Clear t := by
  refine Meets.observed (Ω := outline N) (fun r w => Clear t w ∧ ∀ p, r = some (some p) → p.token < w.1.fresh) ?_ ?_ fun r => ?_
  · exact fun r u w w' hu hi hi' hg h =>
      ⟨stable_clear u w w' hu hi hi' hg h.1, fun p hp => Nat.lt_of_lt_of_le (h.2 p hp) hg.fresh⟩
  · intro w h hi hw r w' he _
    obtain ⟨hh, hi', hg⟩ := step_calm (N := N) (s := .db (.claim owner)) rfl hi he
    refine ⟨hi', hg, hw, fun p hp => ?_⟩
    subst hp
    rcases execUpdate_cases he with ⟨hr, _⟩ | ⟨hr, hw', _⟩
    · cases hr
    · subst hw'
      have hc : (claimPendingUploads w owner).1 = some p := (some.inj hr).symm
      obtain ⟨e, he, hT⟩ := claimPendingUploads_eq_some w hc
      have := hi.below e.token (congrArg (Option.map Entry.token) he)
      rw [hT.1]
      exact Nat.lt_of_lt_of_le this hg.fresh
  · rcases r with _ | _ | p
    · exact fun _ _ hw => hw.1
    · exact fun _ _ hw => hw.1
    · refine Meets.pre (P := Holding t p.token) (fun w _ hw => ⟨hw.1, hw.2 p rfl⟩) ?_
      exact (routine (stable_holding _) Holding.own fun _ hw => hw.1).withLockWrite (meets_flush p owner)

/-! ## CompleteUpload -/

theorem meets_complete {f : Option Entry → Req α} (hn : Shows N t (f none) (Clear t) Q)
    (hf : ∀ e, Shows N t (f (some e)) (Holding t e.token) Q) :
    Shows N t (ask (.db (.complete etag body exp base missing owner)) >>= f) (Clear t) Q := by
  refine Meets.observed (Ω := outline N) (fun r w => Clear t w ∧ ∀ e, r = some e → e.token < w.1.fresh) ?_ ?_ fun r => ?_
  · exact fun r u w w' hu hi hi' hg h =>
      ⟨stable_clear u w w' hu hi hi' hg h.1, fun p hp => Nat.lt_of_lt_of_le (h.2 p hp) hg.fresh⟩
  · intro w h hi hw r w' he _
    obtain ⟨hi', hg, hT⟩ := step_complete hi he
    exact ⟨hi', hg, hw, hT⟩
  · rcases r with _ | e
    · exact hn.pre fun _ _ hw => hw.1
    · exact (hf e).pre fun _ _ hw => ⟨hw.1, hw.2 e rfl⟩

theorem meets_completeConditional (body : Body) (exp : Nat) (base : Option OriginObj) :
    Shows N t (completeConditional N g body exp base) (Clear t) fun _ => Clear t := by
  refine meets_complete meets_ret fun e => ?_
  refine (meets_keep fenceReadCache_calm (stable_holding e.token) Holding.own).bind fun _ => ?_
  refine (meets_flush e g.id).bind fun r => meets_clear ?_
  split
  · exact .stmt rfl fun _ => trivial
  all_goals trivial

theorem meets_request (hp : IsRequest N p) : Shows N t p (Clear t) fun _ => Clear t := by
  cases hp with
  | upload g body pre => exact routine_clear.upload (meets_uploadPending body) (meets_uploadThrough body)
  | complete g body pre =>
    refine routine_clear.complete (meets_complete meets_ret fun e => ?_) (meets_completeConditional body)
    exact Meets.pre (fun _ _ hw => hw.1) ((meets_clear fenceReadCache_calm).bind fun _ => meets_ret)
  | delete g => exact routine_clear.delete meets_deleteLocked
  | deleteMany g => exact routine_clear.deleteMany meets_deleteLocked
  | flush g owner => exact meets_runPendingOnce owner
  | head g => exact meets_clear (head_reads.mono calm_of_reads)
  | openObject g n rng => exact meets_clear ((openObject_reads n rng).mono calm_of_reads)

/-! ## Every run -/

theorem env_tokens {e : Ev} (he : env N e w = some w') (hs : e.sweeps .write = false) :
    w'.pendingToken = w.pendingToken ∧ w'.entryToken = w.entryToken := by
  constructor
  · have hrow : w'.wb = w.wb := by
      rcases env_row he .write with hr | ⟨hs', _⟩
      · exact hr
      · rw [hs] at hs'
        cases hs'
    rw [World.pendingToken, hrow, World.pendingToken]
  · obtain ⟨f, ho, hf⟩ := env_outbox he
    cases hw : w.outbox with
    | none => simp [World.entryToken, ho, hw]
    | some x => simp [World.entryToken, ho, hw, (hf x).1]

theorem outline_sound (N : Naming) : (outline N).Sound (policy N) where
  idle_stable _ := stable_clear
  spawn t _ _ _ hd hp := ⟨Clear t, stable_clear, hd, meets_request hp⟩
  done _ _ _ hi hp := ⟨hi, guar_token (le_rfl) rfl, hp⟩
  env e := by
    rintro ⟨w, h⟩ ⟨w', h'⟩ hi ha hx
    obtain ⟨he, rfl⟩ := Observer.env_eq_some.1 hx
    obtain ⟨hp, ho⟩ := env_tokens he ha
    exact ⟨hi.same (env_keeps he).fresh.ge hp ho, guar_token (env_keeps he).fresh.ge hp⟩

instance (N : Naming) : (policy N).Decides where
  step t s w r := by
    unfold policy
    dsimp only
    split
    · exact inferInstanceAs (Decidable (World.pendingToken w.1 = none))
    · exact inferInstanceAs (Decidable (World.outbox w.1 = none))
    · exact inferInstanceAs (Decidable (World.outbox w.1 = none))
    · exact .isTrue trivial
  env e _ := inferInstanceAs (Decidable (Ev.sweeps e .write = false))

instance (N : Naming) : (everyRun N).Decides where
  step _ _ _ _ := .isTrue trivial
  env e _ := inferInstanceAs (Decidable (Ev.sweeps e .write = false))

def putDeleteSchedule : List (Move (observer sampleNaming).sys) :=
  [.spawn 0 (uploadWithOptions sampleNaming (sampleGateway 0) largeBody .none),
    .run 0 0, .run 0 0, .run 0 0, .run 0 0, .run 0 0, .run 0 0, .run 0 0, .run 0 0, .done 0,
    .spawn 0 (delete sampleNaming (sampleGateway 0)),
    .run 0 0, .run 0 0, .run 0 0, .run 0 0, .run 0 0, .run 0 0, .run 0 0, .run 0 0, .run 0 0, .run 0 0, .done 0]

/-- A write-back PUT is acknowledged. A small PUT writes through, its publication fails, and it
clears the outbox. -/
def failedPublicationSchedule : List (Move (observer sampleNaming).sys) :=
  [.spawn 0 (uploadWithOptions sampleNaming (sampleGateway 0) largeBody .none),
    .run 0 0, .run 0 0, .run 0 0, .run 0 0, .run 0 0, .run 0 0, .run 0 0, .run 0 0, .done 0,
    .spawn 0 (uploadWithOptions sampleNaming (sampleGateway 0) ⟨1, 5⟩ .none),
    .run 0 0, .run 0 0, .run 0 0, .run 0 0, .run 0 1, .run 0 0, .run 0 0, .run 0 0, .run 0 0, .run 0 0, .done 0]

end Pairing

end Pgvs3.Tier
