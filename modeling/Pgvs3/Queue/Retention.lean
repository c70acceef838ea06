import Pgvs3.Queue.StreamXids
/-!
# Retention is a minimum

A rotation truncates the segment after the current one and makes it the current one, at the earliest
half a retention after the rotation before it (`schema.sql:1159-1224`). So a segment is truncated
two rotations after it was sealed. `Clocked` adds the times that the functions of
`Pgvs3.Queue.Stream` do not read: `created_at` of an event, which is when the transaction of its
append began, and `sealed_at` of a segment (`schema.sql:723-747`).
-/

namespace Pgvs3.Stream

open List Option Function

structure Truncated where
  event : Event
  createdAt : Nat
  /-- `now()` of the rotation that sealed its segment. -/
  sealedAt : Option Nat
  /-- When it was truncated. -/
  time : Nat
deriving DecidableEq, Repr

structure Clocked where
  world : World
  /-- `now()` in each session's transaction. -/
  began : Nat → Nat
  /-- `created_at` of each event, by its `seq`. -/
  createdAt : Nat → Nat
  sealedAt : Nat → Option Nat
  truncated : List Truncated

namespace Clocked

variable (s : Clocked)

def begin : Act → Nat → Nat
  | .start i began _ => update s.began i began
  | _ => s.began

/-- The events of session `i` get the numbers from `eventSeq` on. -/
def create (w' : World) : Act → Nat → Nat
  | .run i => fun q => if s.world.seg.eventSeq ≤ q ∧ q < w'.seg.eventSeq then s.began i else s.createdAt q
  | _ => s.createdAt

/-- `UPDATE stream_segments SET sealed_at = ...`. -/
def seals : Act → Nat → Option Nat
  | .truncate =>
    match s.world.rotation with
    | some (.checked target _ began) => update (update s.sealedAt s.world.seg.current (some began)) target none
    | _ => s.sealedAt
  | _ => s.sealedAt

def truncate : Act → List Truncated
  | .truncate =>
    match s.world.rotation with
    | some (.checked target _ _) => s.truncated ++ (s.world.seg.events.filter (·.segment = target)).map fun e =>
        ⟨e, s.createdAt e.seq, s.sealedAt target, s.world.now⟩
    | _ => s.truncated
  | _ => s.truncated

def next (a : Act) : Option Clocked :=
  (Stream.next s.world a).map fun w' => ⟨w', s.begin a, s.create w' a, s.seals a, s.truncate a⟩

def init (maxRetries retention : Nat) : Clocked := ⟨.init maxRetries retention, fun _ => 0, fun _ => 0, fun _ => none, []⟩

end Clocked

abbrev clocked : Conc.Machine := ⟨Clocked, Act, Clocked.next⟩

/-- The segment had been sealed; and an event created before the rotation that sealed it began has
been kept for the retention. -/
def Truncated.Kept (retention : Nat) (x : Truncated) : Prop :=
  ∃ t, x.sealedAt = some t ∧ (x.createdAt ≤ t → x.createdAt + retention ≤ x.time)

variable {a : Act} {w w' : World} {retention : Nat} {s s' : Clocked}

/-! ## What a step does to the segments -/

/-- Only a truncation makes another segment the current one, and events are appended to the current
one. -/
theorem next_segments (hg : Segs w) (hs : Step w a w') (ha : a ≠ .truncate) :
    w'.retention = w.retention ∧ w'.seg.current = w.seg.current ∧ w'.seg.startedAt = w.seg.startedAt ∧ w.now ≤ w'.now ∧
      ∀ e ∈ w'.seg.events, e ∈ w.seg.events ∨ e.segment = w.seg.current := by
  have hsame : ∀ {v : World}, v.seg = w.seg → v.retention = w.retention → v.now = w.now →
      v.retention = w.retention ∧ v.seg.current = w.seg.current ∧ v.seg.startedAt = w.seg.startedAt ∧ w.now ≤ v.now ∧
        ∀ e ∈ v.seg.events, e ∈ w.seg.events ∨ e.segment = w.seg.current := by
    intro v hseg hret hnow
    rw [hseg]
    exact ⟨hret, rfl, rfl, Nat.le_of_eq hnow.symm, fun e he => .inl he⟩
  have henrol : ∀ r, (w.enrol r).retention = w.retention ∧ (w.enrol r).now = w.now := by
    intro r
    unfold World.enrol
    split <;> exact ⟨rfl, rfl⟩
  cases hs with
  | elapse time => exact ⟨rfl, rfl, rfl, Nat.le_add_right _ _, fun e he => .inl he⟩
  | write | nack => exact ⟨rfl, rfl, rfl, le_rfl, fun e he => .inl he⟩
  | commit i x rows moved hi =>
    refine ⟨rfl, rfl, rfl, le_rfl, fun e he => ?_⟩
    rcases mem_append.1 he with he | he
    · exact .inl he
    · exact .inr (hg.rows _ (mem_of_getElem? hi) e he).1
  | enrol _ r | settle _ r => exact hsame (enrol_rest w r).2.2 (henrol r).1 (henrol r).2
  | truncate => exact absurd rfl ha
  | _ => exact hsame rfl rfl rfl

theorem next_rotation (hs : Step w a w') {rot : Rotation} (hr : w'.rotation = some rot) :
    w.rotation = some rot ∨ (∃ b, rot = .locked b ∧ b ≤ w.now) ∨
      ∃ b x, w.rotation = some (.locked b) ∧ rot = .checked ((w.seg.current + 1) % 3) x b ∧
        2 * w.seg.startedAt + w.retention ≤ 2 * b := by
  cases hs with
  | enrol _ r | settle _ r => exact .inl ((enrol_rest w r).2.1.symm.trans hr)
  | rotate began _ _ hbegan =>
    cases hr
    exact .inr (.inl ⟨began, rfl, hbegan⟩)
  | check began hlocked _ hdue =>
    cases hr
    exact .inr (.inr ⟨began, w.xid, hlocked, rfl, hdue⟩)
  | giveUp | truncate => cases hr
  | _ => exact .inl hr

/-! ## Ages -/

/-- The rotation began in the past, and if it has passed its checks it is due and is about the next
segment. -/
def Rotation.Due (w : World) : Rotation → Prop
  | .locked began => began ≤ w.now
  | .checked target _ began => target = (w.seg.current + 1) % 3 ∧ 2 * w.seg.startedAt + w.retention ≤ 2 * began ∧ began ≤ w.now

/-- The segment before the current one was sealed when that was started, and the one before at least
half a retention earlier. -/
structure Aged (retention : Nat) (s : Clocked) : Prop where
  config : s.world.retention = retention
  current : s.world.seg.current < 3
  last : ∀ t, s.sealedAt ((s.world.seg.current + 2) % 3) = some t → t ≤ s.world.seg.startedAt
  first : ∀ t, s.sealedAt ((s.world.seg.current + 1) % 3) = some t → 2 * t + retention ≤ 2 * s.world.seg.startedAt
  sealed : ∀ e ∈ s.world.seg.events, e.segment ≠ s.world.seg.current → ∃ t, s.sealedAt e.segment = some t
  due : ∀ rot, s.world.rotation = some rot → rot.Due s.world
  kept : ∀ x ∈ s.truncated, x.Kept retention

theorem aged_truncate (h : Aged retention s) (hn : s.next .truncate = some s') : Aged retention s' := by
  obtain ⟨w', hw', rfl⟩ := map_eq_some_iff.1 hn
  simp only [Stream.next] at hw'
  split at hw'
  · next target x began hr =>
    cases hw'
    obtain ⟨htarget, hdue, hbegan⟩ : target = _ ∧ _ ∧ _ := h.due _ hr
    have hcur := h.current
    have hret := h.config
    -- the three segments
    have hnext : target ≠ s.world.seg.current := by omega
    have hlast : (target + 2) % 3 = s.world.seg.current := by omega
    have hfirst : (target + 1) % 3 = (s.world.seg.current + 2) % 3 := by omega
    have hseal : s.seals .truncate = update (update s.sealedAt s.world.seg.current (some began)) target none := by
      simp [Clocked.seals, hr]
    have hgone : s.truncate .truncate = s.truncated ++ (s.world.seg.events.filter (·.segment = target)).map fun e =>
        ⟨e, s.createdAt e.seq, s.sealedAt target, s.world.now⟩ := by
      simp [Clocked.truncate, hr]
    refine ⟨h.config, ?_, fun t ht => ?_, fun t ht => ?_, fun e he hne => ?_, by intros; contradiction, fun y hy => ?_⟩
    · show target < 3
      omega
    · change s.seals .truncate ((target + 2) % 3) = some t at ht
      rw [hseal, hlast, update_of_ne (Ne.symm hnext), update_self] at ht
      exact Nat.le_of_eq (Option.some.inj ht).symm
    · change s.seals .truncate ((target + 1) % 3) = some t at ht
      rw [hseal, update_of_ne (by omega), hfirst, update_of_ne (by omega)] at ht
      have hle := h.last t ht
      show 2 * t + retention ≤ 2 * began
      omega
    · obtain ⟨he, hseg⟩ := mem_filter.1 he
      have hseg : e.segment ≠ target := by simpa using hseg
      show ∃ t, s.seals .truncate e.segment = some t
      rw [hseal, update_of_ne hseg]
      by_cases hc : e.segment = s.world.seg.current
      · exact ⟨began, by rw [hc, update_self]⟩
      · rw [update_of_ne hc]
        exact h.sealed e he hc
    · change y ∈ s.truncate .truncate at hy
      rw [hgone] at hy
      rcases mem_append.1 hy with hy | hy
      · exact h.kept y hy
      · obtain ⟨e, he, rfl⟩ := mem_map.1 hy
        obtain ⟨he, hseg⟩ := mem_filter.1 he
        have hseg : e.segment = target := by simpa using hseg
        obtain ⟨t, ht⟩ := h.sealed e he (by rw [hseg]; exact hnext)
        refine ⟨t, by rw [← hseg]; exact ht, fun hcreated => ?_⟩
        have hold := h.first t (by rw [← htarget, ← hseg]; exact ht)
        change s.createdAt e.seq ≤ t at hcreated
        show s.createdAt e.seq + retention ≤ s.world.now
        omega
  · cases hw'

theorem aged_next (hg : Segs s.world) (h : Aged retention s) (hn : s.next a = some s') :
    Aged retention s' := by
  by_cases ha : a = .truncate
  · subst ha
    exact aged_truncate h hn
  · obtain ⟨w', hw', rfl⟩ := map_eq_some_iff.1 hn
    have hs := step_of_next hw'
    obtain ⟨hret, hcur, hstart, hnow, hevents⟩ := next_segments hg hs ha
    have hseal : s.seals a = s.sealedAt := by
      cases a <;> first | rfl | exact absurd rfl ha
    have hgone : s.truncate a = s.truncated := by
      cases a <;> first | rfl | exact absurd rfl ha
    refine ⟨hret.trans h.config, hcur ▸ h.current, ?_, ?_, fun e he hne => ?_, fun rot hr => ?_, hgone ▸ h.kept⟩
    · show ∀ t, s.seals a ((w'.seg.current + 2) % 3) = some t → t ≤ w'.seg.startedAt
      rw [hseal, hcur, hstart]
      exact h.last
    · show ∀ t, s.seals a ((w'.seg.current + 1) % 3) = some t → 2 * t + retention ≤ 2 * w'.seg.startedAt
      rw [hseal, hcur, hstart]
      exact h.first
    · show ∃ t, s.seals a e.segment = some t
      rw [hseal]
      rcases hevents e he with he | hc
      · exact h.sealed e he (hcur ▸ hne)
      · exact absurd (hc.trans hcur.symm) hne
    · rcases next_rotation hs hr with hold | ⟨b, rfl, hb⟩ | ⟨b, x, hlocked, rfl, hdue⟩
      · have hdue := h.due rot hold
        cases rot with
        | locked b => exact Nat.le_trans hdue hnow
        | checked target x b =>
          obtain ⟨htarget, hlate, hb⟩ := hdue
          refine ⟨?_, ?_, Nat.le_trans hb hnow⟩
          · rw [hcur]
            exact htarget
          · rw [hstart, hret]
            exact hlate
      · exact Nat.le_trans hb hnow
      · have hb : b ≤ s.world.now := h.due _ hlocked
        refine ⟨?_, ?_, Nat.le_trans hb hnow⟩
        · rw [hcur]
        · rw [hstart, hret]
          exact hdue

structure AgedInv (retention : Nat) (s : Clocked) : Prop where
  xids : Xids s.world
  segs : Segs s.world
  aged : Aged retention s

theorem agedInv_next (h : AgedInv retention s) (hn : s.next a = some s') : AgedInv retention s' := by
  obtain ⟨w', hw', rfl⟩ := map_eq_some_iff.1 hn
  have hs := step_of_next hw'
  exact ⟨xids_next h.xids (fun t ht e he => (h.segs.rows t ht e he).2) hs, segs_next h.xids h.segs hs, aged_next h.segs h.aged hn⟩

theorem agedInv_init (maxRetries retention : Nat) : AgedInv retention (.init maxRetries retention) :=
  ⟨xids_init _ _, segs_init _ _, rfl, Nat.zero_lt_succ _, nofun, nofun, nofun, nofun, nofun⟩

/-- An event of time 3; rotations at 5, 10 and 15, of which a fourth at 11 is not due. -/
def threeRotations : List Act :=
  [.connect, .elapse 3, .start 0 3 (.append [1]), .run 0, .run 0, .elapse 2, .rotate 5, .check, .truncate, .elapse 5, .rotate 10, .check,
    .truncate, .elapse 1, .rotate 11, .check, .elapse 4, .rotate 15, .check, .truncate]

end Pgvs3.Stream
