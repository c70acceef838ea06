import Pgvs3.Tier.Presence.Steps
/-!
# An object in view: Head and Open

A request that begins after an acknowledged write is never told that there is no object, and a
flight hands such an answer only to requests that began before (`meets_coalesce`).
-/

namespace Pgvs3.Tier

open Conc Sys Tier Outline

namespace Presence

/-! ## Rules -/

variable {N : Naming} {g : Gateway} {t : Nat} {α : Type} {P P' : World × Hist → Prop} {Q : α → World × Hist → Prop}

def Kept (t : Nat) (P : World × Hist → Prop) : Prop := ∀ x x', Mono t x x' → P x → P x'

theorem Kept.stable (hP : Kept t P) : (outline N).Stable t P := stable_ofRely hP

theorem Kept.and (hP : Kept t P) (hP' : Kept t P') : Kept t fun x => P x ∧ P' x :=
  fun x x' hm h => ⟨hP x x' hm h.1, hP' x x' hm h.2⟩

theorem kept_clear : Kept t fun x => Clear t x.1 := fun _ _ hm h => hm.clear h

theorem kept_sure : Kept t (Sure t) := fun _ _ hm h => hm.sure h

theorem kept_origin : Kept t fun x => x.1.origin.isSome = true := fun _ _ hm h => hm.origin h

theorem kept_published : Kept t fun x => x.2.published = true := fun _ _ hm h => hm.published h

theorem kept_early : Kept t fun x => x.2.since t = some false := fun _ _ hm h => hm.since false h

theorem kept_leads (k : FlightKey) : Kept t fun x => Leads t k x.1 := fun _ _ hm h => hm.leads k h

theorem kept_imp {p : Prop} (hP : Kept t P) : Kept t fun x => p → P x := fun x x' hm h hp => hP x x' hm (h hp)

variable {s : Stmt} {f : s.Ans → Req α} {p : Req α}

theorem meets_plain (hs : plain s = true) (hP : Kept t P) (P' : s.Ans → World × Hist → Prop) (hk : ∀ r, Kept t (P' r))
    (hx : ∀ w h r w', Inv w h → P (w, h) → (r, w') ∈ exec N t s w → (policy N).step t s (w, h) r →
      P (w', (observer N).step t s r w w' h) → P' r (w', (observer N).step t s r w w' h))
    (hf : ∀ r, Ensures N t (f r) (P' r) Q) :
    Ensures N t (ask s >>= f) P Q := by
  refine Meets.own P' hk (fun w h r w' hi hw he ha => ?_) hf
  obtain ⟨hi', hm⟩ := step_plain hs hi he ha
  exact ⟨hi', fun v _ => hm v, hx w h r w' hi hw he ha (hP _ _ (hm t) hw)⟩

theorem meets_skip (hs : plain s = true) (hP : Kept t P) (hf : ∀ r, Ensures N t (f r) P Q) : Ensures N t (ask s >>= f) P Q :=
  meets_plain hs hP (fun _ => P) (fun _ => hP) (fun _ _ _ _ _ _ _ _ h => h) hf

theorem meets_keep (hp : Asks plain p) (hP : Kept t P) : Ensures N t p P fun _ => P := by
  refine Meets.observed_all (Ω := outline N) hP.stable ?_ hp
  intro s hs w h hi hw r w' he ha
  obtain ⟨hi', hm⟩ := step_plain hs hi he ha
  exact ⟨hi', fun v _ => hm v, hP _ _ (hm t) hw⟩

theorem Ensures.left (hp : Ensures N t p P Q) : Ensures N t p (fun x => P x ∧ P' x) Q :=
  hp.pre fun _ _ hx => hx.1

theorem meets_ret {a : α} (h : ∀ x, P x → Q a x) : Ensures N t (pure a) P Q := fun x _ hx => h x hx

/-! ## Reads -/

variable {a : Res} {x : World × Hist}

theorem Ends.of_clear (h₁ : a ≠ .notFound) (h₂ : Res.isWritten a = false) (hc : Clear t x.1) :
    Ends t a x :=
  ⟨hc, fun h => absurd h h₁, fun h => by rw [h₂] at h; cases h⟩

theorem Ends.of_early (hc : Clear t x.1) (hs : x.2.since t = some false) : Ends t .notFound x :=
  ⟨hc, fun _ => hs, nofun⟩

/-- What the query of the rows shows to a request that began after an acknowledged write. -/
def Shows (s : Rows) (w : World) : Prop :=
  match s.lookup with
  | some (_, r) => (versionOf r).isDeleted = false ∧ ((versionOf r).isPending = true ∨ w.origin.isSome = true)
  | none => w.origin.isSome = true

structure Looked (t : Nat) (s : Rows) (x : World × Hist) : Prop where
  clear : Clear t x.1
  shows_ : ∃ b, x.2.since t = some b ∧ (b = true → Shows s x.1)
  denied : (s.lookup.any fun y => (versionOf y.2).isDeleted) = true → x.2.denied t = true

theorem kept_looked (s : Rows) : Kept t (Looked t s) := by
  rintro x x' hm ⟨hc, ⟨b, hb, hs⟩, hd⟩
  refine ⟨hm.clear hc, ⟨b, hm.since b hb, fun hb' => ?_⟩, fun h => hm.denied (hd h)⟩
  have hs := hs hb'
  unfold Shows at hs ⊢
  split
  · next hl =>
    simp only [hl] at hs
    exact ⟨hs.1, hs.2.imp_right hm.origin⟩
  · next hl =>
    simp only [hl] at hs
    exact hm.origin hs

/-- A tombstone in sight: the request began before. -/
theorem Looked.gone {s : Rows} {side : Side} {r : Row} (h : Looked t s x) (hl : s.lookup = some (side, r))
    (hd : (versionOf r).isDeleted = true) : x.2.since t = some false ∧ x.2.denied t = true := by
  obtain ⟨b, hb, hs⟩ := h.shows_
  refine ⟨?_, h.denied (by simp [hl, hd])⟩
  cases b with
  | false => exact hb
  | true =>
    have hs := hs rfl
    simp only [Shows, hl] at hs
    cases hs.1.symm.trans hd

/-- Unless a pending body is in sight, the origin has the object. -/
theorem Looked.sure {s : Rows} (h : Looked t s x)
    (hl : ∀ side r, s.lookup = some (side, r) → (versionOf r).isPending = false) : Sure t x := by
  obtain ⟨b, hb, hs⟩ := h.shows_
  refine ⟨b, hb, fun hb' => ?_⟩
  have hs := hs hb'
  unfold Shows at hs
  split at hs
  · next hr =>
    rcases hs.2 with hp | ho
    · cases (hl _ _ hr).symm.trans hp
    · exact ho
  · exact hs

theorem meets_rows {f : Option Rows → Req α} (hP : Kept t P) (hc : ∀ x, P x → Clear t x.1) (hnone : Ensures N t (f none) P Q)
    (hsome : ∀ s, Ensures N t (f (some s)) (fun x => P x ∧ Looked t s x) Q) :
    Ensures N t (ask .rows >>= f) P Q := by
  refine meets_plain rfl hP (fun r x => P x ∧ ∀ s, r = some s → Looked t s x)
    (fun r => hP.and fun x x' hm h s hs => kept_looked s x x' hm (h s hs)) (fun w h r w' hi hw he ha hw' => ?_) fun r => ?_
  · refine ⟨hw', fun s hs => ?_⟩
    subst hs
    rcases (List.mem_cons.1 he) with he | he
    · cases he
      obtain ⟨him, _, b, hb⟩ := mark_ok hi t
      refine ⟨hc _ hw', ⟨b, (Hist.deny_since _ _ _ _).trans hb, fun hb' => ?_⟩, fun hd => ?_⟩
      · subst hb'
        exact (hi.visible (him.late t hb)).lookup
      · simp [observer, Hist.learn, hd, Hist.deny]
    · cases List.mem_singleton.1 he
  · cases r with
    | none => exact hnone.pre fun x _ hx => hx.1
    | some s => exact (hsome s).pre fun x _ hx => ⟨hx.1, hx.2 s rfl⟩

/-- The request waits for no flight, and knows that the origin has the object if it began after a
write. -/
def Ready (t : Nat) (x : World × Hist) : Prop := Clear t x.1 ∧ Sure t x

theorem kept_ready : Kept t (Ready t) := kept_clear.and kept_sure

theorem Looked.ready {s : Rows} (h : Looked t s x)
    (hl : ∀ side r, s.lookup = some (side, r) → (versionOf r).isPending = false) : Ready t x :=
  ⟨h.clear, h.sure hl⟩

/-- A negative answer is one from before the write. -/
def Told (t : Nat) (f : Fetched) (x : World × Hist) : Prop := f = .missing → x.2.since t = some false

theorem kept_told (f : Fetched) : Kept t (Told t f) := kept_imp kept_early

/-- The request has been told what it answers. -/
def Denied (t : Nat) (f : Fetched) (x : World × Hist) : Prop := f = .missing → x.2.since t = some false ∧ x.2.denied t = true

theorem kept_denied (f : Fetched) : Kept t (Denied t f) :=
  kept_imp (kept_early.and fun _ _ hm h => hm.denied h)

theorem meets_originRead {f : Fetched → Req α} (hP : Kept t P) (hr : ∀ x, P x → Sure t x)
    (hf : ∀ r, Ensures N t (f r) (fun x => P x ∧ Denied t r x) Q) :
    Ensures N t (ask .originRead >>= f) P Q := by
  refine meets_plain rfl hP (fun r x => P x ∧ Denied t r x) (fun r => hP.and (kept_denied r)) (fun w h r w' hi hw he _ hw' => ?_) hf
  refine ⟨hw', fun hm => ?_⟩
  subst hm
  obtain ⟨b, hb, ho⟩ := hr _ hw'
  have hnone : w.origin = none ∧ w' = w := by
    rcases List.mem_cons.1 he with he | he
    · cases hor : w.origin with
      | none => exact ⟨rfl, congrArg Prod.snd he⟩
      | some o =>
        simp only [World.originAns, hor] at he
        cases he
    · cases List.mem_singleton.1 he
  refine ⟨?_, by simp only [observer, Hist.learn, Hist.deny, if_true, upd_self]⟩
  cases b with
  | false => exact hb
  | true =>
    have ho := ho rfl
    simp only [hnone.2, hnone.1] at ho
    cases ho

/-- A coalesced call: its leader asks, the others wait for its answer. -/
theorem meets_coalesce {p : Req Fetched} {k : FlightKey}
    (hp : Ensures N t p (fun x => Ready t x ∧ Leads t k x.1) fun f x => (Ready t x ∧ Leads t k x.1) ∧ Denied t f x) :
    Ensures N t
      (do if ← ask (.join k) then
            let r ← p
            ask (.finish k r)
            return r
          else ask .wait) (Ready t) fun f x => Ready t x ∧ Told t f x := by
  refine Meets.own (fun r x => Sure t x ∧ (r = true → Clear t x.1 ∧ Leads t k x.1))
    (fun r => kept_sure.and (kept_imp (kept_clear.and (kept_leads k)))) (fun w h r w' hi hw he ha => ?_) fun r => ?_
  · obtain ⟨hi', hm, hs, hl⟩ := step_join hi hw.2 he ha
    exact ⟨hi', hm, hs, fun hr => ⟨(hl hr).1 hw.1, (hl hr).2⟩⟩
  · cases r with
    | true =>
      simp only
      refine (hp.pre fun x _ hx => ⟨⟨(hx.2 trivial).1, hx.1⟩, (hx.2 trivial).2⟩).bind fun f => ?_
      refine Meets.own (fun _ x => Ready t x ∧ Told t f x) (fun _ => kept_ready.and (kept_told f)) (fun w h r w' hi hw he _ => ?_)
        fun _ => meets_ret fun x hx => hx
      obtain ⟨⟨⟨hc, b, hb, ho⟩, hl⟩, hd⟩ := hw
      obtain ⟨hi', hm, hc', hor, hh⟩ := step_finish hi ⟨b, hb⟩ hl (fun h => (hd h).2) he
      refine ⟨hi', hm, ?_⟩
      rw [hh]
      exact ⟨⟨hc' hc, b, hb, fun hb' => hor.symm ▸ ho hb'⟩, fun h => (hd h).1⟩
    | false =>
      refine Meets.own (fun f x => Ready t x ∧ Told t f x) (fun f => kept_ready.and (kept_told f)) (fun w h r w' hi hw he _ => ?_)
        fun f => meets_ret fun x hx => hx
      obtain ⟨hi', hm, hc, ht⟩ := step_wait hi hw.1 he
      exact ⟨hi', fun v _ => hm v, ⟨hc, (hm t).sure hw.1⟩, ht⟩

theorem meets_coalesceHead : Ensures N t (coalesceHead g) (Ready t) fun f x => Ready t x ∧ Told t f x :=
  meets_coalesce (meets_originRead (kept_ready.and (kept_leads _)) (fun _ hx => hx.1.2) fun _ => meets_ret fun _ hx => hx)

def Resolved (t : Nat) (e : Except Res Resolution) (x : World × Hist) : Prop :=
  match e with
  | .error a => Ends t a x
  | .ok res => Clear t x.1 ∧ (Sure t x ∨ (res.valid = true ∧ res.entry ≠ none))

theorem Resolved.ready {res : Resolution} (h : Resolved t (.ok res) x) (hn : ¬ (res.valid = true ∧ res.entry ≠ none)) : Ready t x :=
  ⟨h.1, h.2.resolve_right hn⟩

theorem meets_failed (h₁ : a ≠ .notFound) (h₂ : Res.isWritten a = false) (hc : ∀ x, P x → Clear t x.1) :
    Ensures N t (pure a) P (Ends t) :=
  meets_ret fun x hx => .of_clear h₁ h₂ (hc x hx)

theorem meets_error (h₁ : a ≠ .notFound) (h₂ : Res.isWritten a = false) : Ensures N t (pure a) (Ready t) (Ends t) :=
  meets_failed h₁ h₂ fun _ hx => hx.1

theorem meets_unresolved (h₁ : a ≠ .notFound) (h₂ : Res.isWritten a = false) (hc : ∀ x, P x → Clear t x.1) :
    Ensures N t (pure (.error a)) P (Resolved t) :=
  meets_ret fun x hx => .of_clear h₁ h₂ (hc x hx)

theorem meets_resolved (res : Resolution) : Ensures N t (pure (.ok res)) (Ready t) (Resolved t) :=
  meets_ret fun _ hx => ⟨hx.1, .inl hx.2⟩

variable (deleteStale : Bool)

theorem meets_dropStale (side : Side) (r : Row) (o : OriginObj) :
    Ensures N t (dropStale g deleteStale side r o) (Ready t) (Resolved t) := by
  unfold dropStale
  split
  · split
    · exact meets_resolved _
    · refine meets_skip rfl kept_ready fun a => ?_
      split
      · exact meets_unresolved nofun rfl fun x hx => hx.1
      · exact meets_resolved _
  · split
    · exact meets_skip rfl kept_ready fun a => meets_resolved _
    · exact meets_resolved _

theorem meets_validateFound (m : Option (Side × Row)) (validated : Nat) (o : OriginObj) :
    Ensures N t (validateFound g deleteStale m validated o) (Ready t) (Resolved t) := by
  unfold validateFound
  split
  · split
    · refine meets_skip rfl kept_ready fun a => ?_
      split
      · exact meets_unresolved nofun rfl fun x hx => hx.1
      · exact meets_resolved _
    · exact meets_resolved _
  · split
    · split
      · exact meets_resolved _
      · exact meets_skip rfl kept_ready fun a => meets_resolved _
    · exact meets_dropStale _ _ _ _

theorem meets_validate (m : Option (Side × Row)) :
    Ensures N t (validate g deleteStale m) (Ready t) (Resolved t) := by
  refine meets_skip rfl kept_ready fun validated => meets_coalesceHead.bind fun f => ?_
  split
  · exact (meets_validateFound _ _ _ _).left
  · -- the origin does not have the object: an answer from before the write
    have hgone : Ensures N t (pure (.error .notFound)) (fun x => Ready t x ∧ Told t .missing x) (Resolved t) :=
      meets_ret fun x hx => .of_early hx.1.1 (hx.2 rfl)
    unfold validateMissing
    split
    · split
      · exact hgone
      · exact meets_skip rfl (kept_ready.and (kept_told _)) fun _ => hgone
    · exact hgone
  · exact meets_unresolved nofun rfl fun x hx => hx.1.1

theorem meets_resolveMiss : Ensures N t (resolveMiss g deleteStale) (Ready t) (Resolved t) := by
  unfold resolveMiss
  split
  · refine meets_skip rfl kept_ready fun m => ?_
    split
    · exact meets_unresolved nofun rfl fun x hx => hx.1
    · split
      · exact meets_resolved _
      · exact meets_validate _ _
  · exact meets_validate _ _

theorem meets_resolveCache (deleteStale skip : Bool) :
    Ensures N t (resolveCache g deleteStale skip) (fun x => Clear t x.1) (Resolved t) := by
  refine meets_rows kept_clear (fun _ hx => hx) (meets_unresolved nofun rfl fun x hx => hx) fun s => ?_
  simp only
  split
  · next side r hl =>
    split
    · next hd =>
      exact meets_ret fun x hx => .of_early hx.1 (hx.2.gone hl (by rw [hd]; rfl)).1
    · exact meets_ret fun x hx => ⟨hx.1, .inr ⟨rfl, nofun⟩⟩
    · next hv =>
      split
      · exact meets_ret fun x hx => ⟨hx.1, .inr ⟨rfl, nofun⟩⟩
      · refine (meets_validate _ _).pre fun x _ hx => hx.2.ready fun side' r' hl' => ?_
        cases hl.symm.trans hl'
        rw [hv]
        rfl
  · next hl =>
    have hready : ∀ x, Clear t x.1 ∧ Looked t s x → Ready t x := fun x hx => hx.2.ready fun _ _ hl' => by cases hl.symm.trans hl'
    split
    · exact meets_ret fun x hx => ⟨hx.1, .inl (hready x hx).2⟩
    · exact (meets_resolveMiss _).pre fun x _ hx => hready x hx

theorem meets_head : Ensures N t (head g) (fun x => Clear t x.1) (Ends t) := by
  refine (meets_resolveCache false false).bind fun e => ?_
  split
  · exact meets_ret fun x hx => hx
  · exact meets_failed nofun rfl fun x hx => hx.1

/-! ## Fills -/

def Led (t : Nat) (k : FlightKey) (x : World × Hist) : Prop := Ready t x ∧ Leads t k x.1

theorem kept_led (k : FlightKey) : Kept t (Led t k) := kept_ready.and (kept_leads k)

theorem kept_led_denied (k : FlightKey) (f : Fetched) : Kept t fun x => Led t k x ∧ Denied t f x :=
  (kept_led k).and (kept_denied f)

theorem meets_probe (k : FlightKey) : Ensures N t probe (Led t k) fun p x => Led t k x ∧ ∀ f, p = some f → Denied t f x := by
  refine meets_rows (kept_led k) (fun _ hx => hx.1.1) ?_ fun s => ?_
  · exact meets_ret fun x hx => ⟨hx, fun f hf h => by cases hf; cases h⟩
  · simp only
    split
    · exact meets_ret fun x hx => ⟨hx.1, nofun⟩
    · next hl =>
      split
      · next hd =>
        exact meets_ret fun x hx => ⟨hx.1, fun f hf _ => hx.2.gone hl (by rw [hd]; rfl)⟩
      · exact meets_ret fun x hx => ⟨hx.1, fun f hf h => by cases hf; cases h⟩
      · exact meets_ret fun x hx => ⟨hx.1, fun f hf h => by cases hf; cases h⟩

theorem meets_acquireFill (k : FlightKey) : ∀ n,
    Ensures N t (acquireFill n) (Led t k) fun e x => Led t k x ∧ ∀ f, e = .error f → Denied t f x
  | 0 => meets_ret fun x hx => ⟨hx, fun f hf h => by cases hf; cases h⟩
  | n + 1 => by
    refine (meets_probe k).bind fun p => ?_
    split
    · next f => exact meets_ret fun x hx => ⟨hx.1, fun f' hf' => by cases hf'; exact hx.2 f rfl⟩
    · refine meets_skip rfl ((kept_led k).and fun x x' hm h f hf => kept_denied f x x' hm (h f hf)) fun a => ?_
      split
      · exact meets_ret fun x hx => ⟨hx.1, fun f hf h => by cases hf; cases h⟩
      · exact (meets_acquireFill k n).left
      · refine ((meets_probe k).left).bind fun p => ?_
        split
        · next f =>
          refine meets_skip rfl ((kept_led k).and fun x x' hm h f hf => kept_denied f x x' hm (h f hf)) fun _ => ?_
          exact meets_ret fun x hx => ⟨hx.1, fun f' hf' => by cases hf'; exact hx.2 f rfl⟩
        · exact meets_ret fun x hx => ⟨hx.1, nofun⟩

theorem meets_fetch (k : FlightKey) (owner : Nat) : Ensures N t (fetch N g owner) (Led t k) fun f x => Led t k x ∧ Denied t f x := by
  have hno : ∀ {P : World × Hist → Prop} {f : Fetched}, (∀ x, P x → Led t k x) → f ≠ .missing →
      Ensures N t (pure f) P fun f x => Led t k x ∧ Denied t f x :=
    fun hP hf => meets_ret fun x hx => ⟨hP x hx, fun h => absurd h hf⟩
  refine meets_originRead (kept_led k) (fun _ hx => hx.1.2) fun r => ?_
  split
  · refine meets_skip rfl (kept_led_denied k _) fun now => meets_skip rfl (kept_led_denied k _) fun a => ?_
    split
    · exact hno (fun x hx => hx.1) nofun
    · exact hno (fun x hx => hx.1) nofun
    · refine meets_skip rfl (kept_led_denied k _) fun s => ?_
      split
      · exact hno (fun x hx => hx.1) nofun
      · split
        · exact hno (fun x hx => hx.1) nofun
        · exact hno (fun x hx => hx.1) nofun
  · exact meets_ret fun x hx => hx
  · exact hno (fun x hx => hx.1) nofun

theorem meets_fillOnce (k : FlightKey) (n : Nat) : Ensures N t (fillOnce N g n) (Led t k) fun f x => Led t k x ∧ Denied t f x := by
  refine meets_skip rfl (kept_led k) fun _ => (meets_acquireFill k n).bind fun a => ?_
  split
  · next f =>
    refine Meets.pre (P := fun x => Led t k x ∧ Denied t f x) (fun x _ hx => ⟨hx.1, hx.2 f rfl⟩) ?_
    exact meets_skip rfl (kept_led_denied k f) fun _ => meets_ret fun x hx => hx
  · refine ((meets_fetch k _).left).bind fun f => ?_
    refine meets_skip rfl (kept_led_denied k f) fun lost => meets_skip rfl (kept_led_denied k f) fun _ =>
      meets_skip rfl (kept_led_denied k f) fun _ => meets_ret fun x hx => ⟨hx.1, ?_⟩
    split
    · exact nofun
    · exact hx.2

theorem meets_coalesceFill (n : Nat) : Ensures N t (coalesceFill N g n) (Ready t) fun f x => Ready t x ∧ Told t f x :=
  meets_coalesce (meets_fillOnce _ n)

/-! ## Open -/

theorem meets_openCached (side : Side) (r : Row) : Ensures N t (openCached side r) (fun x => Clear t x.1) (Ends t) := by
  refine meets_plain rfl kept_clear (fun a x => Clear t x.1 ∧ a ≠ some false) (fun a => kept_clear.and fun _ _ _ h => h)
    (fun w h a w' _ _ _ ha hc => ⟨hc, ?_⟩) fun a => ?_
  · rintro rfl
    exact ha
  · split
    · exact meets_failed nofun rfl fun x hx => hx.1
    · split
      · exact meets_failed nofun rfl fun x hx => hx.1
      · next hl => exact Meets.vacuous fun x _ hx => hx.2 (by simpa using hl)

theorem meets_originEnd {f : OriginObj → Req Res} (hf : ∀ o, Ensures N t (f o) (Ready t) (Ends t)) : Ensures N t
      (do match ← ask .originRead with
          | .found o => f o
          | .missing => return .notFound
          | _ => return .failed) (Ready t) (Ends t) := by
  refine meets_originRead kept_ready (fun _ hx => hx.2) fun r => ?_
  split
  · exact (hf _).left
  · exact meets_ret fun x hx => .of_early hx.1.1 (hx.2 rfl).1
  · exact Ensures.left (meets_error nofun rfl)

theorem meets_passThrough (etag : Text) : Ensures N t (passThrough etag) (Ready t) (Ends t) :=
  meets_originEnd fun _ => meets_error nofun rfl

theorem meets_passThroughWhole : Ensures N t passThroughWhole (Ready t) (Ends t) :=
  meets_originEnd fun _ => meets_error nofun rfl

theorem meets_openPending (rng : ByteRange) : Ensures N t (openPending rng) (Ready t) (Ends t) := by
  refine meets_originEnd fun o => ?_
  split
  · exact meets_error nofun rfl
  · split
    · exact meets_error nofun rfl
    · exact meets_passThrough _

theorem meets_openRange (version : Text) (rng : ByteRange) : Ensures N t (openRange g version rng) (Ready t) (Ends t) := by
  refine meets_skip rfl kept_ready fun c => ?_
  split
  · exact meets_error nofun rfl
  · exact meets_error nofun rfl
  · split
    · exact meets_openPending rng
    · refine meets_skip rfl kept_ready fun r => ?_
      split
      · split
        · exact meets_skip rfl kept_ready fun _ => meets_error nofun rfl
        · exact meets_skip rfl kept_ready fun _ => meets_openPending rng
      · exact meets_skip rfl kept_ready fun _ => meets_openPending rng
      · exact meets_error nofun rfl

theorem meets_openFilled (r : Row) (rng : ByteRange) : Ensures N t (openFilled r rng) (fun x => Clear t x.1) (Ends t) := by
  refine meets_rows kept_clear (fun _ hx => hx) ?_ fun s => ?_
  · simp only [Option.bind_none]
    split
    · exact meets_failed nofun rfl fun x hx => hx
    · exact meets_openCached _ _
  · simp only [Option.bind_some]
    split
    · next wm hw =>
      split
      · next hd =>
        have hl : s.lookup = some (.write, wm) := by simp [Rows.lookup, hw]
        exact meets_ret fun x hx => .of_early hx.1 (hx.2.gone hl hd).1
      · split
        · exact meets_failed nofun rfl fun x hx => hx.1
        · exact (meets_openCached _ _).left
    · split
      · exact meets_failed nofun rfl fun x hx => hx.1
      · exact (meets_openCached _ _).left

theorem meets_openMiss (n : Nat) (rng : ByteRange) : Ensures N t (openMiss N g n rng) (Ready t) (Ends t) := by
  unfold openMiss
  split
  · exact meets_passThroughWhole
  · refine (meets_coalesceFill n).bind fun f => ?_
    split
    · exact (meets_openPending rng).left
    · exact (meets_openPending rng).left
    · exact (meets_openPending rng).left
    · exact meets_ret fun x hx => .of_early hx.1.1 (hx.2 rfl)
    · exact (meets_openFilled _ rng).pre fun x _ hx => hx.1.1
    · exact Ensures.left (meets_error nofun rfl)

theorem meets_openZero (n : Nat) (res : Resolution) (rng : ByteRange) : Ensures N t (openZero N g n res rng)
      (Resolved t (.ok res)) (Ends t) := by
  unfold openZero
  split
  · exact meets_failed nofun rfl fun x hx => hx.1
  · next hv =>
    refine ((meets_coalesceFill n).pre fun x _ hx => hx.ready fun h => hv (.inl h.1)).bind fun f => ?_
    split
    · exact Ensures.left (meets_error nofun rfl)
    · exact Ensures.left (meets_error nofun rfl)
    · exact (meets_openPending rng).left
    · exact meets_ret fun x hx => .of_early hx.1.1 (hx.2 rfl)
    · split
      · exact (meets_openPending rng).left
      · exact Ensures.left (meets_error nofun rfl)
    · exact Ensures.left (meets_error nofun rfl)

theorem meets_openResolved (n : Nat) (res : Resolution) (rng : ByteRange) : Ensures N t (openResolved N g n res rng)
      (Resolved t (.ok res)) (Ends t) := by
  unfold openResolved
  split
  · exact (meets_openCached _ _).left
  · next hv =>
    have hready : ∀ x, Resolved t (.ok res) x → Ready t x := by
      refine fun x hx => hx.ready fun h => ?_
      obtain ⟨⟨side, r⟩, he⟩ := Option.ne_none_iff_exists'.1 h.2
      exact hv side r h.1 he
    split
    · exact (meets_passThrough _).pre fun x _ hx => hready x hx
    · refine ((meets_coalesceFill n).pre fun x _ hx => hready x hx).bind fun f => ?_
      split
      · exact (meets_passThrough _).left
      · exact (meets_passThrough _).left
      · exact (meets_openPending rng).left
      · exact meets_ret fun x hx => .of_early hx.1.1 (hx.2 rfl)
      · split
        · exact (meets_openPending rng).left
        · exact (meets_openFilled _ rng).pre fun x _ hx => hx.1.1
      · exact Ensures.left (meets_error nofun rfl)

theorem meets_openObject (n : Nat) (rng : ByteRange) : Ensures N t (openObject N g n rng) (fun x => Clear t x.1) (Ends t) := by
  refine (meets_resolveCache true _).bind fun e => ?_
  split
  · exact meets_ret fun x hx => hx
  · next res =>
    split
    · next hn => exact (meets_openMiss n rng).pre fun x _ hx => hx.ready fun h => h.2 hn.2
    · split
      · exact meets_failed nofun rfl fun x hx => hx.1
      · next span hsp =>
        have hplan : ∀ act, planCacheRead g res res.info.size span = act → act = .passThrough ∨ act = .range →
            ∀ x, Resolved t (.ok res) x → Ready t x := by
          intro act ha hact x hx
          refine hx.ready fun h => ?_
          subst ha
          simp only [planCacheRead, h.1, Bool.not_true, Bool.false_eq_true, false_and, and_false, if_false, true_or, if_true] at hact
          split at hact <;> rcases hact with h | h <;> cases h
        split
        · exact meets_openZero n res rng
        · next ha => exact (meets_passThrough _).pre fun x _ hx => hplan _ ha (.inl rfl) x hx
        · next ha => exact (meets_openRange _ rng).pre fun x _ hx => hplan _ ha (.inr rfl) x hx
        · exact meets_openResolved n res rng

end Presence

end Pgvs3.Tier
