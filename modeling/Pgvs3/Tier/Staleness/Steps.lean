import Pgvs3.Conc.History
import Pgvs3.Tier.Shape
/-!
# Bounded staleness: history, invariant, statements

`Hist.last` is the last time each version was the origin's current one. `Inv` says that a row of the
read cache was current at or after its `created_at`, and remembered metadata at or after its
`validated_at`. Publications, refreshes and `RememberOriginMetadata` keep it if what they write down
is true (`timely`), the others by themselves (`turns_exec`).
-/

namespace Pgvs3.Tier

open Conc Sys Option

namespace Staleness

/-! ## History -/

/-- The last time each version was current at the origin; the time of each request's first
statement; whether the write-back namespace has had a live row since then. -/
structure Hist where
  last : Text → Option Nat
  began : Nat → Option Nat
  seen : Nat → Bool

def covered (w : World) : Bool := (liveRow w.wb w.now).isSome

def Hist.watch (h : Hist) (w : World) : Hist :=
  { h with
    last := fun v => if w.origin.any (·.version == v) then some w.now else h.last v
    seen := fun t => h.seen t || covered w }

def Hist.init (w : World) : Hist := Hist.watch ⟨fun _ => none, fun _ => none, fun _ => false⟩ w

def Hist.begin (h : Hist) (t : Nat) (w : World) : Hist :=
  match h.began t with
  | some _ => h
  | none => { h with began := upd h.began t (some w.now), seen := upd h.seen t (covered w) }

def observer (N : Naming) : Observer (sys N) Hist where
  step t _ _ w w' h := (h.begin t w).watch w'
  env _ _ w' h := h.watch w'
  done t _ _ h := { h with began := upd h.began t none }

/-- The version was current at some time from `ttl` before request `t` began until now. -/
def Hist.within (h : Hist) (ttl t : Nat) (v : Text) : Bool :=
  (h.last v).any fun τ => (h.began t).all (· ≤ τ + ttl)

variable {h : Hist} {t τ ttl : Nat} {v : Text} {r : Row}

theorem Hist.within_iff : h.within ttl t v = true ↔ ∃ τ, h.last v = some τ ∧ ∀ s, h.began t = some s → s ≤ τ + ttl := by
  simp [within, Option.any_eq_true, Option.all_eq_true]

theorem Hist.within_mono {ttl' : Nat} (hl : ttl ≤ ttl') (hw : h.within ttl t v = true) : h.within ttl' t v = true := by
  obtain ⟨τ, hτ, hs⟩ := within_iff.1 hw
  exact within_iff.2 ⟨τ, hτ, fun s h' => le_trans (hs s h') (Nat.add_le_add_left hl τ)⟩

def Hist.after (h : Hist) (τ : Nat) (v : Text) : Bool := (h.last v).any (τ ≤ ·)

theorem Hist.after_iff : h.after τ v = true ↔ ∃ τ', h.last v = some τ' ∧ τ ≤ τ' := by
  simp [after, Option.any_eq_true]

/-! ## Conditions -/

def isCurrent (w : World) (v : Text) : Bool := w.origin.any (·.version == v)

/-- The row of the read cache is of the version that the origin has. `versionFor` makes no empty
version. -/
def rowCurrent (w : World) : Bool :=
  w.rc.all fun r => match r.originETag with
    | some (.live v) => v != [] && isCurrent w v
    | _ => true

/-- The times an update writes down are true: the origin still has the version of a row that is
published or refreshed, and had that of remembered metadata when it was validated or later. -/
def timely (w : World) (h : Hist) : (u : Update) → u.Ans → Bool
  | .publish .read k etag body exp, some _ => rowCurrent ((Update.publish .read k etag body exp).apply w).2
  | .touch .read retention, _ => rowCurrent ((Update.touch .read retention).apply w).2
  | .remember info validated ttl, _ =>
    (rememberOriginMetadata w info validated ttl).ometa.all fun m =>
      h.after m.validatedAt m.info.etag && h.after m.validatedAt m.info.originETag
  | _, _ => true

/-- Every row of a live version in the read cache was current since request `t` began. -/
def rowSince (w : World) (h : Hist) (t : Nat) : Bool :=
  w.rc.all fun r => match r.originETag with
    | some (.live v) => h.within 0 t v
    | _ => true

/-- What a coalesced call hands to a waiter was current since the waiter's request began. -/
def handedSince (h : Hist) (t : Nat) : Fetched → Bool
  | .found o => h.within 0 t o.version
  | .row r => h.within 0 t (responseETag .read r)
  | _ => true

/-- The condition on a statement of request `t` and its answer. -/
def onTime (t : Nat) (w : World) (h : Hist) : (s : Stmt) → s.Ans → Bool
  | .db u, some a | .attempt u, some a => timely w h u a
  -- a stale row that `DeleteExpected` fails to delete would be taken for the fill's
  | .attempt (.deleteExpected _), none => rowSince w h t
  | .wait, f => handedSince h t f
  | _, _ => true

/-! ## The invariant -/

structure Inv (w : World) (h : Hist) : Prop where
  current : ∀ o, w.origin = some o → h.last o.version = some w.now
  last_le : ∀ v τ, h.last v = some τ → τ ≤ w.now
  began_le : ∀ t s, h.began t = some s → s ≤ w.now
  seen : ∀ t, h.began t ≠ none → covered w = true → h.seen t = true
  row : ∀ r, w.rc = some r → (∃ d, r.originETag = some (.deleted d)) ∨
    ∃ v, r.originETag = some (.live v) ∧ v ≠ [] ∧ h.after r.createdAt v = true
  ometa : ∀ m, w.ometa = some m → h.after m.validatedAt m.info.etag = true ∧ h.after m.validatedAt m.info.originETag = true

/-- What the steps of others leave to request `t`: a row that comes to life has a version that was
current since the request began. -/
structure Rely (t : Nat) (x x' : World × Hist) : Prop where
  began : x'.2.began t = x.2.began t
  seen : x.2.seen t = true → x'.2.seen t = true
  last : ∀ v τ, x.2.last v = some τ → ∃ τ', x'.2.last v = some τ' ∧ τ ≤ τ'
  rc : ∀ r v, x'.1.rc = some r → r.live x'.1.now = true → r.originETag = some (.live v) →
    (∃ r₀, x.1.rc = some r₀ ∧ r₀.live x.1.now = true ∧ r₀.originETag = some (.live v)) ∨ x'.2.within 0 t v = true

/-! ## Steps of the world -/

variable {w w' : World}

/-- What a step does to the times in the store. -/
structure Turns (w : World) (h : Hist) (w' : World) : Prop where
  now : w.now ≤ w'.now
  rc : ∀ r, w'.rc = some r → w.rc = some r ∨ (∃ d, r.originETag = some (.deleted d)) ∨
    ∃ v, r.originETag = some (.live v) ∧ v ≠ [] ∧ isCurrent w' v = true ∧ r.createdAt ≤ w'.now
  ometa : ∀ m, w'.ometa = some m → w.ometa = some m ∨
    (h.after m.validatedAt m.info.etag = true ∧ h.after m.validatedAt m.info.originETag = true)

theorem Hist.watch_last_of_current (hv : isCurrent w v = true) : (h.watch w).last v = some w.now := by
  have hv : w.origin.any (·.version == v) = true := hv
  simp [watch, hv]

theorem Inv.watch_last (hi : Inv w h) (hn : w.now ≤ w'.now) (hτ : h.last v = some τ) : ∃ τ', (h.watch w').last v = some τ' ∧ τ ≤ τ' := by
  cases hv : isCurrent w' v with
  | true => exact ⟨w'.now, Hist.watch_last_of_current hv, le_trans (hi.last_le v τ hτ) hn⟩
  | false =>
    have hv : w'.origin.any (·.version == v) = false := hv
    exact ⟨τ, by simp [Hist.watch, hv, hτ], le_refl τ⟩

theorem Inv.watch_after (hi : Inv w h) (hn : w.now ≤ w'.now) (ha : h.after τ v = true) : (h.watch w').after τ v = true := by
  obtain ⟨τ₁, hτ₁, hle⟩ := Hist.after_iff.1 ha
  obtain ⟨τ₂, hτ₂, hle₂⟩ := hi.watch_last hn hτ₁
  exact Hist.after_iff.2 ⟨τ₂, hτ₂, le_trans hle hle₂⟩

theorem Inv.within_of_current (hi : Inv w h) (hv : isCurrent w v = true) (ttl t : Nat) : h.within ttl t v = true := by
  obtain ⟨o, ho, he⟩ := (Option.any_eq_true _ _).1 hv
  have he : o.version = v := by simpa using he
  refine Hist.within_iff.2 ⟨w.now, he ▸ hi.current o ho, fun s hs => ?_⟩
  exact le_trans (hi.began_le t s hs) (Nat.le_add_right _ _)

theorem Inv.turn (hi : Inv w h) (ht : Turns w h w') : Inv w' (h.watch w') where
  current o ho := Hist.watch_last_of_current (by simp [isCurrent, ho])
  last_le v τ hτ := by
    simp only [Hist.watch] at hτ
    split at hτ
    · cases hτ
      exact le_rfl
    · exact le_trans (hi.last_le v τ hτ) ht.now
  began_le t s hs := le_trans (hi.began_le t s hs) ht.now
  seen t _ hc := by simp [Hist.watch, hc]
  row r hr := by
    rcases ht.rc r hr with hold | hd | ⟨v, hv, hne, hc, hle⟩
    · refine (hi.row r hold).imp_right ?_
      rintro ⟨v, hv, hne, ha⟩
      exact ⟨v, hv, hne, hi.watch_after ht.now ha⟩
    · exact .inl hd
    · exact .inr ⟨v, hv, hne, Hist.after_iff.2 ⟨w'.now, Hist.watch_last_of_current hc, hle⟩⟩
  ometa m hm := by
    have ha := (ht.ometa m hm).elim (hi.ometa m) id
    exact ⟨hi.watch_after ht.now ha.1, hi.watch_after ht.now ha.2⟩

theorem live_of_le {n n' : Nat} (hn : n ≤ n') (hl : r.live n' = true) : r.live n = true := by
  unfold ObjectRow.live at hl ⊢
  cases he : r.expiresAt with
  | none => rfl
  | some e =>
    rw [he] at hl
    have hlt := of_decide_eq_true hl
    exact decide_eq_true (lt_of_le_of_lt hn hlt)

theorem Inv.rely (hi : Inv w h) (ht : Turns w h w') (t : Nat) : Rely t (w, h) (w', h.watch w') where
  began := rfl
  seen hs := by
    have hs : h.seen t = true := hs
    simp [Hist.watch, hs]
  last v τ hτ := hi.watch_last ht.now hτ
  rc r v hr hl hv := by
    rcases ht.rc r hr with hold | ⟨d, hd⟩ | ⟨v', hv', _, hc, _⟩
    · exact .inl ⟨r, hold, live_of_le ht.now hl, hv⟩
    · cases hd.symm.trans hv
    · cases hv'.symm.trans hv
      exact .inr ((hi.turn ht).within_of_current hc 0 t)

theorem Inv.begin (hi : Inv w h) (t : Nat) : Inv w (h.begin t w) := by
  unfold Hist.begin
  split
  · exact hi
  · refine ⟨hi.current, hi.last_le, fun u s hs => ?_, fun u hu hc => ?_, hi.row, hi.ometa⟩
    · by_cases e : u = t
      · subst e
        cases (upd_self _ _ _).symm.trans hs
        exact le_rfl
      · exact hi.began_le u s ((upd_ne _ _ e).symm.trans hs)
    · by_cases e : u = t
      · subst e
        exact (upd_self _ _ _).trans hc
      · have hu : h.began u ≠ none := fun hn => hu ((upd_ne _ _ e).trans hn)
        exact (upd_ne _ _ e).trans (hi.seen u hu hc)

theorem begin_began : (h.begin t w).began t ≠ none := by
  unfold Hist.begin
  split
  · next hs => rw [hs]; nofun
  · simp

theorem begin_of_began (hb : h.began t ≠ none) : h.begin t w = h := by
  unfold Hist.begin
  split
  · rfl
  · next hn => exact absurd hn hb

theorem rely_begin {v : Nat} (hv : v ≠ t) : Rely v (w, h) (w, h.begin t w) := by
  unfold Hist.begin
  split
  · exact ⟨rfl, id, fun _ τ hτ => ⟨τ, hτ, le_refl τ⟩, fun r v hr hl hv => .inl ⟨r, hr, hl, hv⟩⟩
  · exact ⟨upd_ne _ _ hv, fun hs => (upd_ne _ _ hv).trans hs, fun _ τ hτ => ⟨τ, hτ, le_refl τ⟩, fun r v hr hl hv => .inl ⟨r, hr, hl, hv⟩⟩

theorem Rely.within {x x' : World × Hist} (hr : Rely t x x') (hw : x.2.within ttl t v = true) : x'.2.within ttl t v = true := by
  obtain ⟨τ, hτ, hs⟩ := Hist.within_iff.1 hw
  obtain ⟨τ', hτ', hle⟩ := hr.last v τ hτ
  exact Hist.within_iff.2 ⟨τ', hτ', fun s h' => le_trans (hs s (hr.began ▸ h')) (Nat.add_le_add_right hle ttl)⟩

theorem Rely.trans {x y z : World × Hist} (hxy : Rely t x y) (hyz : Rely t y z) : Rely t x z where
  began := hyz.began.trans hxy.began
  seen hs := hyz.seen (hxy.seen hs)
  last v τ hτ := by
    obtain ⟨τ₁, h₁, hle₁⟩ := hxy.last v τ hτ
    obtain ⟨τ₂, h₂, hle₂⟩ := hyz.last v τ₁ h₁
    exact ⟨τ₂, h₂, le_trans hle₁ hle₂⟩
  rc r v hr hl hv := by
    rcases hyz.rc r v hr hl hv with ⟨r₁, hr₁, hl₁, hv₁⟩ | hw
    · exact (hxy.rc r₁ v hr₁ hl₁ hv₁).imp_right hyz.within
    · exact .inr hw

/-! ## Statements -/

variable {N : Naming}

theorem Turns.of_eq (hn : w.now ≤ w'.now) (hr : w'.rc = w.rc) (hm : w'.ometa = w.ometa) : Turns w h w' :=
  ⟨hn, fun _ h' => .inl (hr ▸ h'), fun _ h' => .inl (hm ▸ h')⟩

theorem Turns.refl (w : World) : Turns w h w := .of_eq (le_rfl) rfl rfl

theorem rowCurrent_row (hc : rowCurrent w = true) (hr : w.rc = some r) (hv : r.originETag = some (.live v)) :
    v ≠ [] ∧ isCurrent w v = true := by
  simpa [rowCurrent, hr, hv] using hc

/-- The times an update leaves in the store are true. -/
theorem turns_update (hi : Inv w h) {u : Update} (hu : u.issued = true) (ha : timely w h u (u.apply w).1 = true) :
    Turns w h (u.apply w).2 := by
  cases u with
  | publish side k etag body exp =>
    cases hr : publishedRow w side k etag body exp with
    | none =>
      have he : (Update.publish side k etag body exp).apply w = (none, w) := by simp [Update.apply, publish, hr]
      rw [he]
      exact .refl w
    | some r =>
      cases side with
      | write =>
        rw [show (Update.publish .write k etag body exp).apply w = _ from publish_write w hr]
        exact .of_eq (le_rfl) rfl rfl
      | read =>
        have he : (Update.publish .read k etag body exp).apply w = _ := publish_read w hr
        obtain ⟨hrow, -, -⟩ := publishedRow_eq_some w hr
        rw [he] at ha ⊢
        refine ⟨le_rfl, ?_, by simp⟩
        rintro r' ⟨⟩
        cases k with
        | tombstone => exact .inr (.inl ⟨w.now, by rw [hrow]; rfl⟩)
        | fill v owner =>
          have hv : r.originETag = some (.live v) := by rw [hrow]; rfl
          have hc : rowCurrent ((Update.publish .read (.fill v owner) etag body exp).apply w).2 = true := ha
          rw [he] at hc
          obtain ⟨hne, hcur⟩ := rowCurrent_row hc rfl hv
          exact .inr (.inr ⟨v, hv, hne, hcur, by rw [hrow]⟩)
        | normal | pending => cases hu
  | claim owner =>
    simp only [Update.apply, claimPendingUploads]
    split
    · split
      · exact .of_eq (le_rfl) rfl rfl
      · exact .refl w
    · exact .refl w
  | retire observed =>
    simp only [Update.apply, retireOriginObject]
    split
    · exact ⟨le_rfl, by simp, by simp⟩
    · exact .refl w
  | deleteExpected v => exact ⟨le_rfl, fun r hr => .inl (filter_eq_some_iff.1 hr).1, fun _ => .inl⟩
  | deleteCacheRow => exact ⟨le_rfl, by intros; contradiction, fun _ => .inl⟩
  | touch side retention =>
    cases side with
    | write => exact .of_eq (le_rfl) rfl rfl
    | read =>
      refine ⟨le_rfl, fun r' hr' => ?_, fun _ => .inl⟩
      obtain ⟨r, hr, rfl⟩ := map_eq_some_iff.1 hr'
      rcases hi.row r hr with ⟨d, hd⟩ | ⟨v, hv, _, _⟩
      · exact .inr (.inl ⟨d, hd⟩)
      · obtain ⟨hne, hcur⟩ := rowCurrent_row ha hr' hv
        exact .inr (.inr ⟨v, hv, hne, hcur, le_rfl⟩)
  | acquireLease =>
    simp only [Update.apply, acquireFillLease]
    split
    · exact .of_eq (le_rfl) rfl rfl
    · exact .refl w
  | remember info validated ttl =>
    have hm : ∀ m, (rememberOriginMetadata w info validated ttl).ometa = some m →
        h.after m.validatedAt m.info.etag = true ∧ h.after m.validatedAt m.info.originETag = true := by
      intro m hm
      have ha : (rememberOriginMetadata w info validated ttl).ometa.all _ = true := ha
      simpa [hm] using ha
    refine ⟨?_, fun r hr => .inl ?_, fun m h' => .inr (hm m h')⟩
    · exact ((Update.remember info validated ttl).beside w).now.ge
    · simp only [Update.apply, rememberOriginMetadata] at hr
      split at hr <;> exact hr
  | forget version => exact ⟨le_rfl, fun _ => .inl, fun m hm => .inl (filter_eq_some_iff.1 hm).1⟩
  | _ => exact .of_eq (le_rfl) rfl rfl

variable {s : Stmt}

theorem turns_exec (hi : Inv w h) (hs : s.issued = true) {r : s.Ans} (hx : (r, w') ∈ exec N t s w)
    (ha : onTime t w h s r = true) : Turns w h w' := by
  cases s with
  | db | attempt =>
    rcases execUpdate_cases hx with ⟨_, rfl⟩ | ⟨rfl, rfl, _⟩
    · exact .refl _
    · exact turns_update hi hs ha
  | _ =>
    have hsame := exec_sameStore rfl hx
    exact .of_eq hsame.now.ge hsame.rc hsame.ometa

theorem turns_env {e : Ev} (he : env N e w = some w') : Turns w h w' := by
  cases e with
  | tick d => cases he; exact .of_eq (Nat.le_add_right _ _) rfl rfl
  | expire side =>
    cases he
    cases side with
    | write => exact .of_eq (le_rfl) rfl rfl
    | read => exact ⟨le_rfl, fun r hr => .inl (filter_eq_some_iff.1 hr).1, fun _ => .inl⟩
  | expireMeta => cases he; exact ⟨le_rfl, fun _ => .inl, fun m hm => .inl (filter_eq_some_iff.1 hm).1⟩
  | evict side others maxBytes limit =>
    cases he
    simp only [evict]
    split
    · exact .refl w
    · split
      · cases side with
        | write => exact .of_eq (le_rfl) rfl rfl
        | read => exact ⟨le_rfl, by intros; contradiction, fun _ => .inl⟩
      · exact .refl w
  | _ => cases he; exact .of_eq (le_rfl) rfl rfl

theorem step_any (hi : Inv w h) (hs : s.issued = true) {r : s.Ans} (hx : (r, w') ∈ exec N t s w)
    (ha : onTime t w h s r = true) : Inv w' ((observer N).step t s r w w' h) ∧
      ∀ v, (v = t → h.began t ≠ none) → Rely v (w, h) (w', (observer N).step t s r w w' h) := by
  have ht := turns_exec hi hs hx ha
  have ht' : Turns w (h.begin t w) w' := by
    refine ⟨ht.now, ht.rc, fun m hm => (ht.ometa m hm).imp_right fun hm => ?_⟩
    have hl : (h.begin t w).last = h.last := by
      unfold Hist.begin
      split <;> rfl
    simpa only [Hist.after, hl] using hm
  refine ⟨(hi.begin t).turn ht', fun v hv => ?_⟩
  by_cases e : v = t
  · subst e
    rw [show (observer N).step v s r w w' h = h.watch w' from congrArg (Hist.watch · w') (begin_of_began (hv rfl))]
    exact hi.rely ht v
  · exact (rely_begin e).trans ((hi.begin t).rely ht' v)

end Staleness

end Pgvs3.Tier
