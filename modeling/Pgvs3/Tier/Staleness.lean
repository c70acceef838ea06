import Pgvs3.Tier.Staleness.Steps
/-!
# Bounded staleness of reads

Head and Open answer from the read cache for `ttl` after the time that the row carries, which is
taken when the row is published or refreshed, not when the origin was asked: a slow fill gives an
old version a new time (`slow_fill_outlives_ttl`). Refreshes, remembered metadata and a coalesced
call whose leader has its answer already can do the same. `onTime` asks that the times are true when
they are written.
-/

namespace Pgvs3.Tier

open Conc Sys List Option Tier Outline

namespace Staleness

inductive IsRead (N : Naming) (g : Gateway) : Req Res → Prop
  | head : IsRead N g (head g)
  | openObject (n : Nat) (rng : ByteRange) : IsRead N g (openObject N g n rng)

/-- `readers t` is the gateway whose Head and Open requests have number `t`; the other numbers are
for any requests. -/
def Spawns (N : Naming) (readers : Nat → Option Gateway) (t : Nat) (p : Req Res) : Prop :=
  match readers t with
  | some g => IsRead N g p
  | none => IsRequest N p

def everyRun (N : Naming) (readers : Nat → Option Gateway) : (observer N).sys.Policy where
  spawn t _ p := Spawns N readers t p
  step _ _ _ _ := True
  env _ _ := True

def policy (N : Naming) (readers : Nat → Option Gateway) : (observer N).sys.Policy where
  spawn t _ p := Spawns N readers t p
  step t s x r := onTime t x.1 x.2 s r = true
  env _ _ := True

/-- The answer `a` of request `t` has a version that was current within `ttl`, unless there was a
write-back row. -/
def Bounded (ttl t : Nat) (a : Res) (x : World × Hist) : Prop :=
  ∀ v, a = .found v → x.2.began t ≠ none ∧ (x.2.seen t = true ∨ x.2.within ttl t v.etag = true)

def Ends (readers : Nat → Option Gateway) (t : Nat) (a : Res) (x : World × Hist) : Prop :=
  ∀ g, readers t = some g → Bounded g.ttl t a x

def outline (N : Naming) (readers : Nat → Option Gateway) : Outline (observer N).sys :=
  .ofRely (fun x => Inv x.1 x.2) Rely (fun t x => x.2.began t = none) (Ends readers)

abbrev Shows (N : Naming) (readers : Nat → Option Gateway) (t : Nat) {α : Type} (p : Req α) (P : World × Hist → Prop)
    (Q : α → World × Hist → Prop) : Prop :=
  (outline N readers).Meets (policy N readers) t p P Q

variable {x : World × Hist} {w' w : World} {α : Type} {f : Fetched} {o : OriginObj} {h : Hist}

/-! ## Rules -/

variable {N : Naming} {readers : Nat → Option Gateway} {g : Gateway} {t : Nat} {P : World × Hist → Prop} {Q : α → World × Hist → Prop}

def Kept (t : Nat) (P : World × Hist → Prop) : Prop := ∀ x x', Rely t x x' → P x → P x'

theorem Kept.stable (hP : Kept t P) : (outline N readers).Stable t P := stable_ofRely hP

theorem kept_true : Kept t fun _ => True := fun _ _ _ _ => trivial

variable {P' : World × Hist → Prop} {s : Stmt} {a : α}

theorem Kept.and (hP : Kept t P) (hP' : Kept t P') : Kept t fun x => P x ∧ P' x :=
  fun x x' hr hp => ⟨hP x x' hr hp.1, hP' x x' hr hp.2⟩

theorem kept_const (p : Prop) : Kept t fun _ => p := fun _ _ _ hp => hp

theorem kept_within (ttl : Nat) (v : Text) : Kept t fun x => x.2.within ttl t v = true := fun _ _ hr => hr.within

/-- `P`, of a request that has begun and has seen no write-back row. -/
def Knows (t : Nat) (P : World × Hist → Prop) (x : World × Hist) : Prop := x.2.began t ≠ none ∧ (x.2.seen t = true ∨ P x)

theorem Knows.imp (h : Knows t P x) (hi : P x → P' x) : Knows t P' x :=
  ⟨h.1, h.2.imp_right hi⟩

theorem Kept.knows (hP : Kept t P) : Kept t (Knows t P) :=
  fun x x' hr hp => ⟨hr.began ▸ hp.1, hp.2.imp hr.seen (hP x x' hr)⟩

theorem meets_tell {f : s.Ans → Req α} (hs : s.issued = true) (hP : Kept t P) (P' : s.Ans → World × Hist → Prop)
    (hP' : ∀ r, Kept t (P' r))
    (hx : ∀ w h r w', Inv w h → covered w = false → P (w, h) → (r, w') ∈ exec N t s w → onTime t w h s r = true →
      Inv w' (h.watch w') → Rely t (w, h) (w', h.watch w') → P' r (w', h.watch w'))
    (hf : ∀ r, Shows N readers t (f r) (Knows t fun x => P x ∧ P' r x) Q) :
    Shows N readers t (ask s >>= f) (Knows t P) Q := by
  refine Meets.observed (Ω := outline N readers) _ (fun r => (hP.and (hP' r)).knows.stable) (fun w h hi hw r w' he ha => ?_) hf
  obtain ⟨hi', hr⟩ := step_any hi hs he ha
  have hrt := hr t fun _ => hw.1
  have hb : (observer N).step t s r w w' h = h.watch w' := congrArg (Hist.watch · w') (begin_of_began hw.1)
  refine ⟨hi', fun v hv => hr v fun e => absurd (by rw [e]) hv, ?_⟩
  rw [hb] at hi' hrt ⊢
  refine ⟨hw.1, ?_⟩
  cases hc : covered w with
  | true => exact .inl (hrt.seen (hi.seen t hw.1 hc))
  | false => exact hw.2.imp hrt.seen fun hp => ⟨hP _ _ hrt hp, hx w h r w' hi hc hp he ha hi' hrt⟩

theorem meets_on {f : s.Ans → Req α} (hs : s.issued = true) (hP : Kept t P) (hf : ∀ r, Shows N readers t (f r) (Knows t P) Q) :
    Shows N readers t (ask s >>= f) (Knows t P) Q :=
  meets_tell hs hP (fun _ _ => True) (fun _ => kept_true) (fun _ _ _ _ _ _ _ _ _ _ _ => trivial)
    fun r => (hf r).pre fun _ _ hx => hx.imp And.left

theorem meets_ret (h : ∀ x, P x → Q a x) : Shows N readers t (pure a) P Q :=
  fun x _ hx => h x hx

theorem Shows.imp {p : Req α} (hp : Shows N readers t p (Knows t P) Q) (h : ∀ x, P' x → P x) : Shows N readers t p (Knows t P') Q :=
  hp.pre fun x _ hx => hx.imp (h x)

theorem meets_know (h : ∀ x, P x → Q a x) : Shows N readers t (pure a) (Knows t P) fun a => Knows t (Q a) :=
  meets_ret fun x hx => hx.imp (h x)

/-! ## What the store tells -/

variable {r : Row} {v u : Text} {ttl : Nat}

/-- Every live row of the read cache, but one of version `u`, was current since request `t` began.
-/
def Others (u : Option Text) (t : Nat) (x : World × Hist) : Prop :=
  ∀ r v, x.1.rc = some r → r.live x.1.now = true → r.originETag = some (.live v) → u = some v ∨ x.2.within 0 t v = true

theorem kept_others (u : Option Text) : Kept t (Others u t) := by
  intro x x' hr ho r v hrc hl hv
  rcases hr.rc r v hrc hl hv with ⟨r₀, hr₀, hl₀, hv₀⟩ | hw
  · exact (ho r₀ v hr₀ hl₀ hv₀).imp_right hr.within
  · exact .inr hw

theorem responseETag_read (hv : r.originETag = some (.live v)) (hne : v ≠ []) : responseETag .read r = v ∧ originETag r = v := by
  have hver : versionOf r = .live v := by simp [versionOf, hv]
  have ho : originETag r = v := by
    unfold originETag
    rw [hver]
    cases v with
    | nil => exact absurd rfl hne
    | cons c cs => rfl
  exact ⟨by simp [responseETag, hver, CacheVersion.isPending, ho], ho⟩

/-- What the rows tell a request at `now`: a live version is named, and is fresh for `ttl` after the
time in the row. -/
def Looked (ttl now t : Nat) (m : Option (Side × Row)) (x : World × Hist) : Prop :=
  match m with
  | none => Others none t x
  | some (.write, _) => False
  | some (.read, r) => (∃ d, r.originETag = some (.deleted d)) ∨ ∃ v, r.originETag = some (.live v) ∧ v ≠ [] ∧
      (now < r.createdAt + ttl → x.2.within ttl t v = true) ∧ Others (some v) t x

/-- A live version that a request has looked up. -/
theorem Looked.live {now : Nat} {side : Side} (hl : Looked ttl now t (some (side, r)) x) (hu : versionOf r = .live u) :
    side = .read ∧ responseETag .read r = u ∧ originETag r = u ∧ (now < r.createdAt + ttl → x.2.within ttl t u = true) ∧
      Others (some u) t x := by
  cases side with
  | write => exact hl.elim
  | read =>
    rcases hl with ⟨d, hd⟩ | ⟨v, hv, hne, hw, ho⟩
    · simp [versionOf, hd] at hu
    · have hvu : v = u := by simpa [versionOf, hv] using hu
      subst hvu
      exact ⟨rfl, (responseETag_read hv hne).1, (responseETag_read hv hne).2, hw, ho⟩

theorem kept_looked (ttl now : Nat) (m : Option (Side × Row)) : Kept t (Looked ttl now t m) := by
  intro x x' hr hl
  unfold Looked at hl ⊢
  split at hl
  · exact kept_others none x x' hr hl
  · exact hl
  · refine hl.imp_right ?_
    rintro ⟨v, hv, hne, hw, ho⟩
    exact ⟨v, hv, hne, fun h' => hr.within (hw h'), kept_others _ x x' hr ho⟩

theorem lookup_uncovered (hc : covered w = false) : Rows.lookup ⟨w.now, w.wb, w.rc⟩ = (liveRow w.rc w.now).map fun r => (.read, r) := by
  have hwb : liveRow w.wb w.now = none := by simpa [covered] using hc
  simp [Rows.lookup, hwb]

theorem looked_lookup (hi : Inv w h) (hc : covered w = false) (ttl : Nat) :
    Looked ttl w.now t (Rows.lookup ⟨w.now, w.wb, w.rc⟩) (w, h) := by
  rw [lookup_uncovered hc]
  cases hr : liveRow w.rc w.now with
  | none =>
    intro r v hrc hl _
    have hrc : w.rc = some r := hrc
    simp [liveRow, hrc, hl] at hr
  | some r =>
    have hrc := (filter_eq_some_iff.1 hr).1
    refine (hi.row r hrc).imp_right ?_
    rintro ⟨v, hv, hne, ha⟩
    refine ⟨v, hv, hne, fun hlt => ?_, fun r' v' hrc' _ hv' => .inl ?_⟩
    · obtain ⟨τ, hτ, hle⟩ := Hist.after_iff.1 ha
      refine Hist.within_iff.2 ⟨τ, hτ, fun s hs => ?_⟩
      have hsn := hi.began_le t s hs
      omega
    · cases hrc.symm.trans hrc'
      cases hv.symm.trans hv'
      rfl

theorem mem_rows {a : Option Rows} (hx : (a, w') ∈ exec N t .rows w) : w' = w ∧ ∀ s, a = some s → s = ⟨w.now, w.wb, w.rc⟩ := by
  simp only [exec, mem_cons, not_mem_nil, or_false] at hx
  rcases hx with hx | hx
  · cases hx
    exact ⟨rfl, fun s hs => by cases hs; rfl⟩
  · cases hx
    exact ⟨rfl, by simp⟩

def Told (ttl t : Nat) (a : Option Rows) (x : World × Hist) : Prop := ∀ s, a = some s → Looked ttl s.now t s.lookup x

theorem kept_told (ttl : Nat) (a : Option Rows) : Kept t (Told ttl t a) :=
  fun x x' hr hl s hs => kept_looked ttl _ _ x x' hr (hl s hs)

theorem meets_first {f : Option Rows → Req α} (ttl : Nat) (hf : ∀ a, Shows N readers t (f a) (Knows t (Told ttl t a)) Q) :
    Shows N readers t (ask .rows >>= f) (fun x => x.2.began t = none) Q := by
  refine Meets.observed (Ω := outline N readers) (s := Stmt.rows) (fun a => Knows t (Told ttl t a))
    (fun a => (kept_told ttl a).knows.stable) (fun w h hi hw a w' he ha => ?_) hf
  obtain ⟨hi', hr⟩ := step_any hi rfl he ha
  obtain ⟨rfl, hs⟩ := mem_rows (N := N) (t := t) he
  refine ⟨hi', fun v hv => hr v fun e => absurd (by rw [e]) hv, begin_began, ?_⟩
  cases hc : covered w' with
  | true => exact .inl (hi'.seen t begin_began hc)
  | false =>
    refine .inr fun s h' => ?_
    cases hs s h'
    exact looked_lookup hi' hc ttl

theorem within_originRead (hi : Inv w h) (hx : (f, w') ∈ exec N t .originRead w)
    (ho : f = .found o) : w' = w ∧ h.within 0 t o.version = true := by
  simp only [exec, World.originAns, mem_cons, not_mem_nil, or_false] at hx
  rcases hx with hx | hx
  · cases hx
    refine ⟨rfl, ?_⟩
    split at ho
    · next o' hw =>
      cases ho
      exact hi.within_of_current (by simp [isCurrent, hw]) 0 t
    · cases ho
  · cases hx
    cases ho

/-! ## Resolution and Head -/

variable {R : World × Hist → Prop}

/-- The version that the origin has answered was current since the request began. -/
def Answered (t : Nat) (f : Fetched) (x : World × Hist) : Prop := ∀ o, f = .found o → x.2.within 0 t o.version = true

theorem kept_answered (f : Fetched) : Kept t (Answered t f) := fun _ _ hr hw o ho => hr.within (hw o ho)

theorem meets_originRead {f : Fetched → Req α} (hR : Kept t R)
    (hf : ∀ a, Shows N readers t (f a) (Knows t fun x => R x ∧ Answered t a x) Q) :
    Shows N readers t (ask .originRead >>= f) (Knows t R) Q := by
  refine meets_tell rfl hR (Answered t) kept_answered (fun w h a w' hi _ _ he _ _ hr o ho => ?_) hf
  obtain ⟨rfl, hw⟩ := within_originRead hi he ho
  exact hr.within hw

theorem meets_coalesceHead (hR : Kept t R) : Shows N readers t (coalesceHead g) (Knows t R)
    fun f => Knows t fun x => R x ∧ Answered t f x := by
  refine meets_on rfl hR fun b => ?_
  cases b with
  | true => exact meets_originRead hR fun f => meets_on rfl (hR.and (kept_answered f)) fun _ => meets_ret fun _ hx => hx
  | false =>
    refine meets_tell rfl hR (Answered t) kept_answered (fun w h a w' _ _ _ _ ha _ hr o ho => ?_) fun f => meets_ret fun _ hx => hx
    -- the condition on coalesced calls
    subst ho
    exact hr.within ha

/-- What a read knows when it has resolved the key. -/
structure Resolved (g : Gateway) (deleteStale skip : Bool) (t : Nat) (res : Resolution) (x : World × Hist) : Prop where
  entry : res.valid = true → ∃ r, res.entry = some (.read, r) ∧ responseETag .read r = res.info.etag
  info : (skip = true ∧ res.entry = none) ∨ (x.2.within g.ttl t res.info.etag = true ∧ x.2.within g.ttl t res.info.originETag = true)
  others : res.valid = false → deleteStale = true → g.readOnly = false → Others none t x

def ResolvedTo (g : Gateway) (deleteStale skip : Bool) (t : Nat) : Except Res Resolution → World × Hist → Prop
  | .error a, _ => ∀ v, a ≠ .found v
  | .ok res, x => Knows t (Resolved g deleteStale skip t res) x

variable {a : Res} {deleteStale skip : Bool}

theorem meets_refused (ha : ∀ v, a ≠ .found v) : Shows N readers t (pure (.error a)) P (ResolvedTo g deleteStale skip t) :=
  meets_ret fun _ _ => ha

theorem meets_resolved {res : Resolution} (h : ∀ x, P x → Resolved g deleteStale skip t res x) :
    Shows N readers t (pure (.ok res)) (Knows t P) (ResolvedTo g deleteStale skip t) :=
  meets_ret fun x hx => hx.imp (h x)

theorem resolved_origin {m : Option (Side × Row)}
    (ho : x.2.within 0 t o.version = true) (hm : deleteStale = true → g.readOnly = false → Others none t x) :
    Resolved g deleteStale skip t ⟨m, o.info, some o, false, false⟩ x := by
  have hw := Hist.within_mono (Nat.zero_le g.ttl) ho
  exact ⟨nofun, .inr ⟨hw, hw⟩, fun _ => hm⟩

/-- `DeleteExpected` of the row's version leaves only rows that are current enough. -/
theorem others_deleted {a : Option Unit} (ho : Others (some u) t (w, h))
    (hx : (a, w') ∈ exec N t (.attempt (.deleteExpected (.live u))) w)
    (ha : onTime t w h (.attempt (.deleteExpected (.live u))) a = true) : Others none t (w', h) := by
  intro r v hr hl hv
  have hr : w'.rc = some r := hr
  rcases execUpdate_cases hx with ⟨rfl, rfl⟩ | ⟨_, rfl, _⟩
  · have ha : rowSince w' h t = true := ha
    simp only [rowSince, hr, hv, all_some] at ha
    exact .inr ha
  · obtain ⟨hrc, hne⟩ := filter_eq_some_iff.1 hr
    rcases ho r v hrc hl hv with he | hw
    · cases he
      simp [hv] at hne
    · exact .inr hw

theorem meets_dropStale (deleteStale skip : Bool) (now : Nat) (side : Side) (r : Row) (o : OriginObj) (hv : (versionOf r).isLive = true) :
    Shows N readers t (dropStale g deleteStale side r o)
      (Knows t fun x => Looked g.ttl now t (some (side, r)) x ∧ x.2.within 0 t o.version = true) (ResolvedTo g deleteStale skip t) := by
  cases side with
  | write =>
    -- a row of the write-back namespace has been seen
    refine Shows.imp ?_ fun _ => And.left
    unfold dropStale
    simp only
    split
    · exact meets_resolved fun _ => False.elim
    · refine meets_on rfl (kept_const _) fun a => ?_
      split
      · exact meets_refused nofun
      · exact meets_resolved fun _ => False.elim
  | read =>
    unfold dropStale
    simp only
    split
    · obtain ⟨u, hu⟩ : ∃ u, versionOf r = .live u := by
        cases hver : versionOf r with
        | live u => exact ⟨u, rfl⟩
        | pending | deleted => rw [hver] at hv; cases hv
      rw [hu]
      refine meets_tell rfl ((kept_looked g.ttl now _).and (kept_within 0 _)) (fun _ => Others none t) (fun _ => kept_others none) ?_ ?_
      · intro w h a w' hi hc hp he ha hi' hr r' v' hr' hl' hv'
        exact (others_deleted (hp.1.live hu).2.2.2.2 he ha r' v' hr' hl' hv').imp_right hr.within
      · exact fun _ => meets_resolved fun x hx => resolved_origin hx.1.2 fun _ _ => hx.2
    · next hn =>
      refine meets_resolved fun x hx => resolved_origin hx.2 fun hd hr => absurd ⟨by simp [hr], hd⟩ hn

theorem meets_validateFound (deleteStale skip : Bool) (now : Nat) (m : Option (Side × Row)) (validated : Nat) (o : OriginObj)
    (hm : ∀ side r, m = some (side, r) → (versionOf r).isLive = true) :
    Shows N readers t (validateFound g deleteStale m validated o)
      (Knows t fun x => Looked g.ttl now t m x ∧ x.2.within 0 t o.version = true) (ResolvedTo g deleteStale skip t) := by
  have hkept : Kept t fun x => Looked g.ttl now t m x ∧ x.2.within 0 t o.version = true :=
    (kept_looked g.ttl now m).and (kept_within 0 _)
  unfold validateFound
  split
  · split
    · refine meets_on rfl hkept fun a => ?_
      split
      · exact meets_refused nofun
      · exact meets_resolved fun x hx => resolved_origin hx.2 fun _ _ => hx.1
    · exact meets_resolved fun x hx => resolved_origin hx.2 fun _ _ => hx.1
  · next side r =>
    split
    · next hsame =>
      -- the row has the version that the origin has just answered
      have hres : ∀ x, Looked g.ttl now t (some (side, r)) x ∧ x.2.within 0 t o.version = true →
          Resolved g deleteStale skip t ⟨some (side, r), cachedInfo side r, some o, true, false⟩ x := by
        rintro x ⟨hl, ho⟩
        have hver : versionOf r = .live o.version := by
          simp only [sameAsOrigin, Bool.and_eq_true, beq_iff_eq] at hsame
          exact hsame.2
        obtain ⟨rfl, he, ho', -⟩ := hl.live hver
        have hw := Hist.within_mono (Nat.zero_le g.ttl) ho
        refine ⟨fun _ => ⟨r, rfl, rfl⟩, .inr ⟨?_, ?_⟩, nofun⟩
        · rw [cachedInfo, he]
          exact hw
        · rw [cachedInfo, ho']
          exact hw
      split
      · exact meets_resolved hres
      · exact meets_on rfl hkept fun _ => meets_resolved hres
    · exact meets_dropStale deleteStale skip now side r o (hm side r rfl)

theorem meets_validate (deleteStale skip : Bool) (now : Nat) (m : Option (Side × Row))
    (hm : ∀ side r, m = some (side, r) → (versionOf r).isLive = true) :
    Shows N readers t (validate g deleteStale m) (Knows t (Looked g.ttl now t m)) (ResolvedTo g deleteStale skip t) := by
  have hkept := kept_looked (t := t) g.ttl now m
  refine meets_on rfl hkept fun validated => (meets_coalesceHead hkept).bind fun f => ?_
  split
  · next o =>
    exact (meets_validateFound deleteStale skip now m validated o hm).imp fun x hp => ⟨hp.1, hp.2 o rfl⟩
  · unfold validateMissing
    split
    · split
      · exact meets_refused nofun
      · refine Shows.imp (P := fun _ => True) ?_ fun _ _ => trivial
        exact meets_on rfl kept_true fun _ => meets_refused nofun
    · exact meets_refused nofun
  · exact meets_refused nofun

/-- Remembered metadata is as good as an answer of the origin, for `ttl` after its validation. -/
theorem within_freshMeta (hi : Inv w h) {info : Info} (hf : freshMeta g w.ometa w.now = some info) :
    h.within g.ttl t info.etag = true ∧ h.within g.ttl t info.originETag = true := by
  obtain ⟨m, hm, rfl⟩ := map_eq_some_iff.1 hf
  obtain ⟨hm, hfresh⟩ := filter_eq_some_iff.1 hm
  have hlt : w.now < m.validatedAt + g.ttl := by
    simp only [Bool.and_eq_true, decide_eq_true_eq] at hfresh
    exact hfresh.2
  have hin : ∀ v, h.after m.validatedAt v = true → h.within g.ttl t v = true := by
    intro v ha
    obtain ⟨τ, hτ, hle⟩ := Hist.after_iff.1 ha
    refine Hist.within_iff.2 ⟨τ, hτ, fun s hs => ?_⟩
    have hsn := hi.began_le t s hs
    omega
  exact ⟨hin _ (hi.ometa m hm).1, hin _ (hi.ometa m hm).2⟩

theorem meets_resolveMiss (deleteStale skip : Bool) (now : Nat) : Shows N readers t (resolveMiss g deleteStale) (Knows t (Others none t))
      (ResolvedTo g deleteStale skip t) := by
  have hvalidate : Shows N readers t (validate g deleteStale none) (Knows t (Others none t))
      (ResolvedTo g deleteStale skip t) := meets_validate deleteStale skip now none (by simp)
  unfold resolveMiss
  split
  · refine meets_tell rfl (kept_others none) (fun a x => ∀ m n, a = some (m, n) → ∀ info, freshMeta g m n = some info →
        x.2.within g.ttl t info.etag = true ∧ x.2.within g.ttl t info.originETag = true) ?_ ?_ fun a => ?_
    · intro a x x' hr h m n ha info hf
      exact (h m n ha info hf).imp hr.within hr.within
    · intro w h a w' hi _ _ he _ _ hr m n ha info hf
      simp only [exec, mem_cons, not_mem_nil, or_false] at he
      rcases he with he | he
      · cases he
        cases ha
        exact (within_freshMeta hi hf).imp hr.within hr.within
      · cases he
        cases ha
    · split
      · exact meets_refused (by simp)
      · next m n =>
        split
        · next info hf => exact meets_resolved fun x hx => ⟨by simp, .inr (hx.2 m n rfl info hf), fun _ _ _ => hx.1⟩
        · exact hvalidate.imp fun _ => And.left
  · exact hvalidate

theorem meets_resolveCache (deleteStale skip : Bool) : Shows N readers t (resolveCache g deleteStale skip)
    (fun x => x.2.began t = none) (ResolvedTo g deleteStale skip t) := by
  refine meets_first g.ttl fun a => ?_
  split
  · exact meets_refused nofun
  · next s =>
    refine Shows.imp ?_ fun x hp => hp s rfl
    split
    · next side r hl =>
      rw [hl]
      split
      · exact meets_refused nofun
      · next token hver =>
        -- only the write-back namespace has pending rows
        refine meets_resolved fun x hx => ?_
        cases side with
        | write => exact hx.elim
        | read =>
          rcases hx with ⟨d, hd⟩ | ⟨v, hv, _⟩
          · simp [versionOf, hd] at hver
          · simp [versionOf, hv] at hver
      · next u hver =>
        split
        · next hfresh =>
          refine meets_resolved fun x hx => ?_
          obtain ⟨rfl, he, ho, hw, -⟩ := hx.live hver
          refine ⟨fun _ => ⟨r, rfl, rfl⟩, .inr ⟨?_, ?_⟩, nofun⟩
          · rw [cachedInfo, he]
            exact hw hfresh.2
          · rw [cachedInfo, ho]
            exact hw hfresh.2
        · exact meets_validate deleteStale skip s.now _ fun side' r' h' => by cases h'; rw [hver]; rfl
    · next hl =>
      rw [hl]
      split
      · next hskip => exact meets_resolved fun x hx => ⟨nofun, .inl ⟨hskip, rfl⟩, fun _ _ _ => hx⟩
      · exact meets_resolveMiss deleteStale skip s.now

theorem meets_done (ha : ∀ v, a ≠ .found v) : Shows N readers t (pure a) P (Bounded ttl t) :=
  meets_ret fun _ _ v hv => absurd hv (ha v)

theorem meets_found {v : View} (h : ∀ x, P x → x.2.within ttl t v.etag = true) :
    Shows N readers t (pure (.found v)) (Knows t P) (Bounded ttl t) :=
  meets_ret fun x hx v' hv => by cases hv; exact ⟨hx.1, hx.2.imp_right (h x)⟩

theorem meets_head : Shows N readers t (head g) (fun x => x.2.began t = none) (Bounded g.ttl t) := by
  refine (meets_resolveCache false false).bind fun e => ?_
  split
  · exact meets_ret fun x hx v hv => absurd hv (hx v)
  · refine meets_found fun x hx => ?_
    rcases hx.info with ⟨hskip, _⟩ | hw
    · cases hskip
    · exact hw.1

/-! ## Fills -/

/-- The row that a fill hands over was current since the request began. -/
def HandsOver (t : Nat) (f : Fetched) (x : World × Hist) : Prop :=
  ∀ r, f = .row r → x.2.within 0 t (responseETag .read r) = true

theorem kept_handsOver (f : Fetched) : Kept t (HandsOver t f) := fun _ _ hr h r hf => hr.within (h r hf)

theorem handsOver_of_ne (hf : ∀ r, f ≠ .row r) : HandsOver t f x :=
  fun r h => absurd h (hf r)

/-- `R`, and a fill can take every live row for its own. -/
abbrev Ready (t : Nat) (R : World × Hist → Prop) : World × Hist → Prop := Knows t fun x => R x ∧ Others none t x

/-- `R`, and what a fill has handed over. -/
abbrev Handed (t : Nat) (R : World × Hist → Prop) (f : Fetched) : World × Hist → Prop := Knows t fun x => R x ∧ HandsOver t f x

/-- A live row that the lookup finds, when every live row is current enough. -/
def Probed (t : Nat) (m : Option (Side × Row)) (x : World × Hist) : Prop :=
  ∀ side r, m = some (side, r) → (versionOf r).isDeleted = false → x.2.within 0 t (responseETag .read r) = true

theorem probed_lookup (hi : Inv w h) (hc : covered w = false) (ho : Others none t (w, h)) :
    Probed t (Rows.lookup ⟨w.now, w.wb, w.rc⟩) (w, h) := by
  intro side r hl hd
  rw [lookup_uncovered hc] at hl
  obtain ⟨r', hr', he⟩ := map_eq_some_iff.1 hl
  cases he
  obtain ⟨hrc, hlive⟩ := filter_eq_some_iff.1 hr'
  rcases hi.row r hrc with ⟨d, hd'⟩ | ⟨v, hv, hne, _⟩
  · simp [versionOf, hd', CacheVersion.isDeleted] at hd
  · rw [(responseETag_read hv hne).1]
    rcases ho r v hrc hlive hv with he | hw
    · cases he
    · exact hw

theorem meets_rows {f : Option Rows → Req α} (hR : Kept t R) (hf : ∀ a : Option Rows, Shows N readers t (f a)
      (Knows t fun x => (R x ∧ Others none t x) ∧ ∀ s, a = some s → Probed t s.lookup x) Q) :
    Shows N readers t (ask .rows >>= f) (Ready t R) Q := by
  refine meets_tell rfl (hR.and (kept_others none)) (fun (a : Option Rows) x => ∀ s, a = some s → Probed t s.lookup x) ?_ ?_ hf
  · intro a x x' hr h s hs side r hl hd
    exact hr.within (h s hs side r hl hd)
  · intro w h a w' hi hc hp he _ hi' hr s hs side r hl hd
    obtain ⟨rfl, hrows⟩ := mem_rows he
    cases hrows s hs
    exact hr.within (probed_lookup hi hc hp.2 side r hl hd)

theorem meets_probe (hR : Kept t R) : Shows N readers t probe (Ready t R)
    fun p => Knows t fun x => (R x ∧ Others none t x) ∧ ∀ f, p = some f → HandsOver t f x := by
  refine meets_rows hR fun a => ?_
  split
  · exact meets_know fun x hp => ⟨hp.1, fun f hf => by cases hf; exact handsOver_of_ne nofun⟩
  · next s =>
    split
    · exact meets_know fun x hp => ⟨hp.1, nofun⟩
    · next side r hl =>
      split
      · exact meets_know fun x hp => ⟨hp.1, fun f hf => by cases hf; exact handsOver_of_ne nofun⟩
      · exact meets_know fun x hp => ⟨hp.1, fun f hf => by cases hf; exact handsOver_of_ne nofun⟩
      · next v hver =>
        refine meets_know fun x hp => ⟨hp.1, ?_⟩
        rintro f ⟨⟩ r' ⟨⟩
        exact hp.2 s rfl side r hl (by rw [hver]; rfl)

theorem meets_acquireFill (hR : Kept t R) : ∀ n, Shows N readers t (acquireFill n)
    (Ready t R) fun e => Knows t fun x => (R x ∧ Others none t x) ∧ ∀ f, e = .error f → HandsOver t f x
  | 0 => meets_know fun x hp => ⟨hp, fun f hf => by cases hf; exact handsOver_of_ne nofun⟩
  | n + 1 => by
    have hkept := hR.and (kept_others (t := t) none)
    refine (meets_probe hR).bind fun p => ?_
    split
    · exact meets_know fun x hp => ⟨hp.1, fun f hf => by cases hf; exact hp.2 _ rfl⟩
    · refine Shows.imp (meets_on rfl hkept fun a => ?_) fun _ => And.left
      split
      · exact meets_know fun x hp => ⟨hp, fun f hf => by cases hf; exact handsOver_of_ne nofun⟩
      · exact meets_acquireFill hR n
      · refine (meets_probe hR).bind fun p => ?_
        split
        · next f =>
          refine Shows.imp (P := fun x => (R x ∧ Others none t x) ∧ HandsOver t f x) ?_ fun x hp => ⟨hp.1, hp.2 f rfl⟩
          refine meets_on rfl (hkept.and (kept_handsOver f)) fun _ => meets_know fun x hp => ⟨hp.1, ?_⟩
          rintro f' ⟨⟩
          exact hp.2
        · exact meets_know fun x hp => ⟨hp.1, nofun⟩

theorem meets_currentFillResult (hR : Kept t R) : Shows N readers t currentFillResult (Ready t R) (Handed t R) := by
  refine meets_rows hR fun a => ?_
  split
  · exact meets_know fun x hp => ⟨hp.1.1, handsOver_of_ne nofun⟩
  · next s =>
    split
    · next r hcur =>
      refine meets_know fun x hp => ⟨hp.1.1, ?_⟩
      rintro r' ⟨⟩
      unfold Rows.current at hcur
      split at hcur
      · next side r₀ hl =>
        split at hcur
        · cases hcur
        · next hd =>
          cases hcur
          exact hp.2 s rfl side r hl (by simpa using hd)
      · cases hcur
    · exact meets_know fun x hp => ⟨hp.1.1, handsOver_of_ne nofun⟩

theorem responseETag_filled {owner : Nat} {etag : Text} {body : Body} {exp : Option Nat}
    (hx : (some (some r), w') ∈ exec N t (.db (.publish .read (.fill v owner) etag body exp)) w)
    (ha : onTime t w h (.db (.publish .read (.fill v owner) etag body exp)) (some (some r)) = true) :
    responseETag .read r = v := by
  rcases execUpdate_cases hx with ⟨he, _⟩ | ⟨he, rfl, _⟩
  · cases he
  · have he := Option.some.inj he
    cases hr : publishedRow w .read (.fill v owner) etag body exp with
    | none => simp [Update.apply, publish, hr] at he
    | some r' =>
      have hp : (Update.publish .read (.fill v owner) etag body exp).apply w = _ := publish_read w hr
      rw [hp] at he
      cases he
      have hv : r.originETag = some (.live v) := by rw [(publishedRow_eq_some w hr).1]; rfl
      have hc : rowCurrent ((Update.publish .read (.fill v owner) etag body exp).apply w).2 = true := ha
      rw [hp] at hc
      exact (responseETag_read hv (rowCurrent_row hc rfl hv).1).1

theorem meets_fetch (hR : Kept t R) (owner : Nat) : Shows N readers t (fetch N g owner) (Ready t R) (Handed t R) := by
  have hkept := hR.and (kept_others (t := t) none)
  refine meets_originRead hkept fun a => ?_
  split
  · next o =>
    refine Shows.imp (P := fun x => (R x ∧ Others none t x) ∧ x.2.within 0 t o.version = true) ?_ fun x hp => ⟨hp.1, hp.2 o rfl⟩
    have hkept' := hkept.and (kept_within (t := t) 0 o.version)
    refine meets_on rfl hkept' fun now => ?_
    refine meets_tell rfl hkept' (fun (a : Option (Option Row)) _ => ∀ r, a = some (some r) → responseETag .read r = o.version)
      (fun _ => kept_const _) (fun w h a w' _ _ _ he ha _ _ r hr => ?_) fun a => ?_
    · subst hr
      exact responseETag_filled he ha
    · split
      · exact meets_know fun x hp => ⟨hp.1.1.1, handsOver_of_ne nofun⟩
      · next r =>
        refine meets_know fun x hp => ⟨hp.1.1.1, ?_⟩
        rintro r' ⟨⟩
        rw [hp.2 r rfl]
        exact hp.1.2
      · exact (meets_currentFillResult hR).imp fun x hp => hp.1.1
  · exact meets_know fun x hp => ⟨hp.1.1, handsOver_of_ne nofun⟩
  · exact meets_know fun x hp => ⟨hp.1.1, handsOver_of_ne nofun⟩

theorem meets_fillOnce (hR : Kept t R) (n : Nat) : Shows N readers t (fillOnce N g n) (Ready t R) (Handed t R) := by
  have hkept := hR.and (kept_others (t := t) none)
  refine meets_on rfl hkept fun _ => (meets_acquireFill hR n).bind fun a => ?_
  split
  · next f =>
    refine Shows.imp (P := fun x => R x ∧ HandsOver t f x) ?_ fun x hp => ⟨hp.1.1, hp.2 f rfl⟩
    exact meets_on rfl (hR.and (kept_handsOver f)) fun _ => meets_ret fun x hx => hx
  · next owner =>
    refine ((meets_fetch hR owner).imp fun _ => And.left).bind fun f => ?_
    have hkept' := hR.and (kept_handsOver (t := t) f)
    refine meets_on rfl hkept' fun lost => meets_on rfl hkept' fun _ => meets_on rfl hkept' fun _ => meets_ret fun x hx => ?_
    refine hx.imp fun hp => ⟨hp.1, ?_⟩
    cases lost with
    | true => exact handsOver_of_ne nofun
    | false => exact hp.2

theorem meets_coalesceFill (hR : Kept t R) (n : Nat) : Shows N readers t (coalesceFill N g n) (Ready t R) (Handed t R) := by
  have hkept := hR.and (kept_others none)
  refine meets_on rfl hkept fun b => ?_
  cases b with
  | true =>
    exact (meets_fillOnce hR n).bind fun f => meets_on rfl (hR.and (kept_handsOver f)) fun _ => meets_ret fun _ hx => hx
  | false =>
    refine meets_tell rfl hkept (HandsOver t) kept_handsOver (fun w h a w' _ _ _ _ ha _ hr r hf => ?_)
      fun f => meets_know fun x hp => ⟨hp.1.1, hp.2⟩
    subst hf
    exact hr.within ha

/-! ## Open -/

variable {ttl : Nat}

theorem meets_openCached (side : Side) (r : Row) : Shows N readers t (openCached side r)
    (Knows t fun x => x.2.within ttl t (responseETag side r) = true) (Bounded ttl t) := by
  refine meets_on rfl (kept_within ttl _) fun a => ?_
  split
  · exact meets_done nofun
  · split
    · exact meets_found fun _ hx => hx
    · exact meets_done nofun

theorem meets_passThrough (etag : Text) : Shows N readers t (passThrough etag)
    (Knows t fun x => x.2.within ttl t etag = true) (Bounded ttl t) := by
  refine meets_on rfl (kept_within ttl _) fun f => ?_
  split
  · exact meets_found fun _ hx => hx
  · exact meets_done nofun
  · exact meets_done nofun

theorem meets_passThroughWhole : Shows N readers t passThroughWhole (Knows t fun _ => True) (Bounded ttl t) := by
  refine meets_originRead kept_true fun f => ?_
  split
  · next o => exact meets_found fun _ hx => Hist.within_mono (Nat.zero_le ttl) (hx.2 o rfl)
  · exact meets_done nofun
  · exact meets_done nofun

theorem meets_openPending (rng : ByteRange) : Shows N readers t (openPending rng) (Knows t R) (Bounded ttl t) := by
  refine Shows.imp ?_ fun _ _ => trivial
  refine meets_originRead kept_true fun f => ?_
  split
  · next o =>
    have hw : ∀ x : World × Hist, True ∧ Answered t (.found o) x →
        x.2.within ttl t o.version = true := fun x hx => Hist.within_mono (Nat.zero_le ttl) (hx.2 o rfl)
    split
    · exact meets_done nofun
    · split
      · exact meets_found hw
      · exact (meets_passThrough o.version).imp hw
  · exact meets_done nofun
  · exact meets_done nofun

theorem meets_openRange (version : Text) (rng : ByteRange) : Shows N readers t (openRange g version rng)
    (Knows t fun x => x.2.within ttl t version = true) (Bounded ttl t) := by
  have hkept := kept_within (t := t) ttl version
  refine meets_on rfl hkept fun c => ?_
  split
  · exact meets_done nofun
  · exact meets_found fun _ hx => hx
  · split
    · exact meets_openPending rng
    · refine meets_on rfl hkept fun f => ?_
      split
      · split
        · exact meets_on rfl hkept fun _ => meets_found fun _ hx => hx
        · exact meets_on rfl hkept fun _ => meets_openPending rng
      · exact meets_on rfl hkept fun _ => meets_openPending rng
      · exact meets_done nofun

/-- The row of a fill, or a write-back row that has come in the meantime. -/
theorem meets_openFilled (r : Row) (rng : ByteRange) : Shows N readers t (openFilled r rng)
    (Knows t fun x => x.2.within ttl t (responseETag .read r) = true) (Bounded ttl t) := by
  refine meets_tell rfl (kept_within ttl _)
    (fun (a : Option Rows) _ => (a.bind fun s => liveRow s.wb s.now) = none) (fun _ => kept_const _) (fun w h a w' _ hc _ he _ _ _ => ?_)
    fun a => ?_
  · have hwb : liveRow w.wb w.now = none := by simpa [covered] using hc
    cases a with
    | none => rfl
    | some s =>
      cases (mem_rows he).2 s rfl
      exact hwb
  · split
    · next wm hw =>
      split
      · exact meets_done nofun
      · split
        · exact meets_done nofun
        · -- such a row has been seen, whatever is answered from it
          exact (meets_openCached _ _).imp fun x hp => by cases hw.symm.trans hp.2
    · split
      · exact meets_done nofun
      · exact (meets_openCached _ r).imp fun _ => And.left

theorem meets_openMiss (n : Nat) (rng : ByteRange) : Shows N readers t (openMiss N g n rng)
    (Knows t fun x => g.readOnly = false → Others none t x) (Bounded ttl t) := by
  unfold openMiss
  split
  · exact meets_passThroughWhole.imp fun _ _ => trivial
  · next hro =>
    refine Shows.imp ((meets_coalesceFill kept_true n).bind fun f => ?_) fun x hp => ⟨trivial, hp (by simpa using hro)⟩
    split
    · exact meets_openPending rng
    · exact meets_openPending rng
    · exact meets_openPending rng
    · exact meets_done nofun
    · next r =>
      exact (meets_openFilled r rng).imp fun x hp => Hist.within_mono (Nat.zero_le ttl) (hp.2 r rfl)
    · exact meets_done nofun

/-- What `Open` knows when it has attributes to plan with. -/
def Planned (g : Gateway) (t : Nat) (res : Resolution) (x : World × Hist) : Prop :=
  x.2.within g.ttl t res.info.etag = true ∧ (res.valid = false → g.readOnly = false → Others none t x)

theorem meets_openZero (n : Nat) (res : Resolution) (rng : ByteRange) :
    Shows N readers t (openZero N g n res rng) (Knows t (Planned g t res)) (Bounded g.ttl t) := by
  unfold openZero
  split
  · exact meets_found fun _ hx => hx.1
  · next hcold =>
    have hkept := kept_within (t := t) g.ttl res.info.etag
    refine Shows.imp (P := fun x => x.2.within g.ttl t res.info.etag = true ∧ Others none t x)
      ((meets_coalesceFill hkept n).bind fun f => ?_)
      fun x hp => ⟨hp.1, hp.2 (by simpa using fun h => hcold (.inl h)) (by simpa using fun h => hcold (.inr h))⟩
    split
    · exact meets_found fun _ hx => hx.1
    · exact meets_found fun _ hx => hx.1
    · exact meets_openPending rng
    · exact meets_done nofun
    · next r =>
      split
      · exact meets_openPending rng
      · exact meets_found fun _ hx => Hist.within_mono (Nat.zero_le g.ttl) (hx.2 r rfl)
    · exact meets_done nofun

theorem meets_openResolved (n : Nat) (res : Resolution) (rng : ByteRange) : Shows N readers t (openResolved N g n res rng)
      (Knows t fun x => Planned g t res x ∧ (res.valid = true → ∃ r, res.entry = some (.read, r) ∧ responseETag .read r = res.info.etag))
      (Bounded g.ttl t) := by
  unfold openResolved
  split
  · next side r hvalid hentry =>
    refine (meets_openCached side r).imp fun x hp => ?_
    obtain ⟨r', he, heq⟩ := hp.2 hvalid
    cases hentry.symm.trans he
    rw [heq]
    exact hp.1.1
  · next hcold =>
    have hvalid : ∀ x, (Planned g t res x ∧
      (res.valid = true → ∃ r, res.entry = some (.read, r) ∧ responseETag .read r = res.info.etag)) →
        res.valid = false := by
      intro x hx
      cases hv : res.valid with
      | false => rfl
      | true =>
        obtain ⟨r, he, _⟩ := hx.2 hv
        exact absurd he (hcold .read r hv)
    have hkept := kept_within (t := t) g.ttl res.info.etag
    split
    · exact (meets_passThrough _).imp fun x hp => hp.1.1
    · next hro =>
      refine Shows.imp (P := fun x => x.2.within g.ttl t res.info.etag = true ∧ Others none t x)
        ((meets_coalesceFill hkept n).bind fun f => ?_) fun x hp => ⟨hp.1.1, hp.1.2 (hvalid x hp) (by simpa using hro)⟩
      split
      · exact (meets_passThrough _).imp fun _ => And.left
      · exact (meets_passThrough _).imp fun _ => And.left
      · exact meets_openPending rng
      · exact meets_done nofun
      · next r =>
        split
        · exact meets_openPending rng
        · exact (meets_openFilled r rng).imp fun x hp => Hist.within_mono (Nat.zero_le g.ttl) (hp.2 r rfl)
      · exact meets_done nofun

theorem meets_openObject (n : Nat) (rng : ByteRange) : Shows N readers t (openObject N g n rng)
    (fun x => x.2.began t = none) (Bounded g.ttl t) := by
  refine (meets_resolveCache true _).bind fun e => ?_
  split
  · exact meets_ret fun x hx v hv => absurd hv (hx v)
  · next res =>
    split
    · next hmiss =>
      refine (meets_openMiss n rng).pre fun x _ hx => hx.imp fun hp hro => ?_
      refine hp.others ?_ rfl hro
      cases hv : res.valid with
      | false => rfl
      | true =>
        obtain ⟨r, he, _⟩ := hp.entry hv
        cases hmiss.2.symm.trans he
    · next hhas =>
      -- the attributes are the origin's or the row's
      have hinfo : ∀ x, Resolved g true (!rng.requested) t res x →
          x.2.within g.ttl t res.info.etag = true ∧ x.2.within g.ttl t res.info.originETag = true := by
        intro x hp
        rcases hp.info with hs | hw
        · exact absurd hs hhas
        · exact hw
      split
      · exact meets_done nofun
      · split
        · exact (meets_openZero n res rng).imp fun x hp => ⟨(hinfo x hp).1, fun hv => hp.others hv rfl⟩
        · exact (meets_passThrough _).imp fun x hp => (hinfo x hp).1
        · exact (meets_openRange _ rng).imp fun x hp => (hinfo x hp).2
        · exact (meets_openResolved n res rng).pre fun x _ hx =>
            hx.imp fun hp => ⟨⟨(hinfo x hp).1, fun hv => hp.others hv rfl⟩, hp.entry⟩

/-! ## Every run -/

theorem meets_any {p : Req Res} (hp : IsRequest N p) : Shows N readers t p (fun _ => True) fun _ _ => True := by
  refine Meets.observed_all (Ω := outline N readers) kept_true.stable ?_ hp.issued
  intro s hs w h hi _ r w' he ha
  obtain ⟨hi', hr⟩ := step_any hi hs he ha
  exact ⟨hi', fun v hv => hr v fun e => absurd (by rw [e]) hv, trivial⟩

theorem outline_sound (N : Naming) (readers : Nat → Option Gateway) : (outline N readers).Sound (policy N readers) where
  idle_stable t := Kept.stable fun x x' hr hb => hr.began.trans hb
  spawn t x p _ hb hp := by
    have hp : Spawns N readers t p := hp
    unfold Spawns at hp
    split at hp
    · next g hg =>
      refine ⟨fun x => x.2.began t = none, Kept.stable fun x x' hr hb => hr.began.trans hb, hb, ?_⟩
      refine Meets.post (fun a x _ hx g' hg' => by cases hg.symm.trans hg'; exact hx) ?_
      cases hp with
      | head => exact meets_head
      | openObject n rng => exact meets_openObject n rng
    · next hn =>
      exact ⟨fun _ => True, kept_true.stable, trivial, (meets_any hp).post fun a x _ _ g hg => by cases hn.symm.trans hg⟩
  done t a := by
    rintro ⟨w, h⟩ hi _
    refine ⟨⟨hi.current, hi.last_le, fun u s hs => ?_, fun u hu hc => ?_, hi.row, hi.ometa⟩, fun v hv => ?_, upd_self _ _ _⟩
    · by_cases e : u = t
      · subst e
        cases (upd_self _ _ _).symm.trans hs
      · exact hi.began_le u s ((upd_ne _ _ e).symm.trans hs)
    · by_cases e : u = t
      · subst e
        exact absurd (upd_self _ _ _) hu
      · exact hi.seen u (fun hn => hu ((upd_ne _ _ e).trans hn)) hc
    · have hv : v ≠ t := fun e => hv (by rw [e])
      exact ⟨upd_ne _ _ hv, id, fun _ τ hτ => ⟨τ, hτ, le_refl τ⟩, fun r v hr hl hv => .inl ⟨r, hr, hl, hv⟩⟩
  env e := by
    rintro ⟨w, h⟩ ⟨w', h'⟩ hi _ hx
    obtain ⟨he, rfl⟩ := Observer.env_eq_some.1 hx
    have ht : Turns w h w' := turns_env he
    exact ⟨Inv.turn hi ht, fun v _ => Inv.rely hi ht v⟩

/-- **Bounded staleness.** In every run from an empty cache in which all times are true when they
are written, what Head or Open answers for a key without a write-back row was the origin's current
version at some time from `ttl` before the request on. -/
theorem reads_bounded (N : Naming) (readers : Nat → Option Gateway) (w₀ : World) (hrc : w₀.rc = none) (hom : w₀.ometa = none)
    (c : (observer N).sys.Conf) (hr : Reaches (policy N readers) (w₀, Hist.init w₀) c) (t : Nat) (g : Gateway)
    (hg : readers t = some g) (v : View) (hv : c.pool t = some (.ret (.found v))) (hs : c.world.2.seen t = false) :
    ∃ s τ, c.world.2.began t = some s ∧ c.world.2.last v.etag = some τ ∧ s ≤ τ + g.ttl := by
  have hi : Inv w₀ (Hist.init w₀) := by
    have hempty : Inv { w₀ with origin := none } ⟨fun _ => none, fun _ => none, fun _ => false⟩ :=
      ⟨nofun, nofun, nofun, fun _ hn => absurd rfl hn, (fun r hr => by cases hrc.symm.trans hr), fun m hm => by cases hom.symm.trans hm⟩
    exact hempty.turn (.of_eq (le_refl _) rfl rfl)
  have hc := (outline_sound N readers).reaches (w := (w₀, Hist.init w₀)) hi (fun _ => rfl) hr
  obtain ⟨hb, hw⟩ := hc.ended hv g hg v rfl
  obtain ⟨s, hs'⟩ := ne_none_iff_exists'.1 hb
  rcases hw with hw | hw
  · cases hs.symm.trans hw
  · obtain ⟨τ, hτ, hle⟩ := Hist.within_iff.1 hw
    exact ⟨s, τ, hs', hτ, hle s hs'⟩

instance (N : Naming) (readers : Nat → Option Gateway) : (policy N readers).Decides where
  step _ _ _ _ := inferInstanceAs (Decidable (_ = true))
  env _ _ := .isTrue trivial

instance (N : Naming) (readers : Nat → Option Gateway) : (everyRun N readers).Decides where
  step _ _ _ _ := .isTrue trivial
  env _ _ := .isTrue trivial

def answer {N : Naming} (c : (observer N).sys.Conf) (t : Nat) : Option View :=
  match c.pool t with
  | some (.ret (.found v)) => some v
  | _ => none

theorem pool_of_answer {c : (observer N).sys.Conf} {v : View} (h : answer c t = some v) : c.pool t = some (.ret (.found v)) := by
  unfold answer at h
  split at h
  · next hp => cases h; exact hp
  · cases h

def secondGateway : Gateway := { sampleGateway 0 with ttl := 1000 }

def sampleReaders (_ : Nat) : Option Gateway := some secondGateway

def originHas : World := { World.empty with origin := some ⟨⟨1, 1⟩, ['v']⟩ }

/-- An Open, until its fill has the origin's answer; and the rest of it. -/
def openStarts : List (Move (observer sampleNaming).sys) :=
  .spawn 0 (openObject sampleNaming secondGateway 1 .whole) :: replicate 7 (.run 0 0)

def openEnds : List (Move (observer sampleNaming).sys) := replicate 8 (.run 0 0) ++ [.done 0]

def headAnswers : List (Move (observer sampleNaming).sys) := [.spawn 1 (head secondGateway), .run 1 0]

def replaced : List (Move (observer sampleNaming).sys) := [.env (.originPut ⟨⟨2, 1⟩, ['w']⟩)]

/-- The object is replaced after the fill; half a second later a Head answers the old version. -/
def promptSchedule : List (Move (observer sampleNaming).sys) :=
  openStarts ++ openEnds ++ replaced ++ [.env (.tick 500)] ++ headAnswers

theorem head_bounded_after_fill : ∃ c : (observer sampleNaming).sys.Conf,
    Reaches (policy sampleNaming sampleReaders) (originHas, Hist.init originHas) c ∧ answer c 1 = some ⟨['v'], 1, none⟩ ∧
      ∃ s τ, c.world.2.began 1 = some s ∧ c.world.2.last ['v'] = some τ ∧ s ≤ τ + 1000 := by
  have hs : (policy sampleNaming sampleReaders).Starts promptSchedule :=
    And.intro (fun _ => IsRead.openObject _ _) (And.intro (fun _ => IsRead.head) trivial)
  obtain ⟨c, hr, hc⟩ := reaches_of_replay hs (w := (originHas, Hist.init originHas))
    (fun c => answer c 1 == some ⟨['v'], 1, none⟩ && !Hist.seen c.world.2 1) (by decide +kernel)
  simp only [Bool.and_eq_true, beq_iff_eq, Bool.not_eq_true'] at hc
  exact ⟨c, hr, hc.1, reads_bounded _ _ _ rfl rfl c hr 1 secondGateway rfl _ (pool_of_answer hc.1) hc.2⟩

/-- The object is replaced while the fill is under way, and the fill ends two seconds later. -/
def slowFillSchedule : List (Move (observer sampleNaming).sys) :=
  openStarts ++ replaced ++ [.env (.tick 2000)] ++ openEnds ++ headAnswers

/-- The Head answers a version that was last current two seconds before it, with a freshness time of
one. -/
theorem slow_fill_outlives_ttl : ¬ ∀ (N : Naming) (readers : Nat → Option Gateway) (w₀ : World), w₀.rc = none → w₀.ometa = none →
    ∀ c : (observer N).sys.Conf, Reaches (everyRun N readers) (w₀, Hist.init w₀) c → ∀ t g, readers t = some g → ∀ v,
      c.pool t = some (.ret (.found v)) → c.world.2.seen t = false →
        ∃ s τ, c.world.2.began t = some s ∧ c.world.2.last v.etag = some τ ∧ s ≤ τ + g.ttl := by
  intro hall
  have hs : (everyRun sampleNaming sampleReaders).Starts slowFillSchedule :=
    And.intro (fun _ => IsRead.openObject _ _) (And.intro (fun _ => IsRead.head) trivial)
  obtain ⟨c, hr, hc⟩ := reaches_of_replay hs (w := (originHas, Hist.init originHas)) (fun c => answer c 1 == some ⟨['v'], 1, none⟩ &&
      (!Hist.seen c.world.2 1 && (Hist.began c.world.2 1 == some 2000 && Hist.last c.world.2 ['v'] == some 0))) (by decide +kernel)
  simp only [Bool.and_eq_true, beq_iff_eq, Bool.not_eq_true'] at hc
  obtain ⟨ha, hseen, hb, hl⟩ := hc
  obtain ⟨s, τ, hs, hτ, hle⟩ := hall _ _ _ rfl rfl c hr 1 secondGateway rfl _ (pool_of_answer ha) hseen
  cases hb.symm.trans hs
  cases hl.symm.trans hτ
  exact absurd hle (by decide)

end Staleness

end Pgvs3.Tier
