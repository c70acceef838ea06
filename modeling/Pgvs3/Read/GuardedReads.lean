import Pgvs3.Read.GuardRead
/-!
# Guarded reads have all of their span

A lent session is used by the read that has it, holds the pins that this read counts on and no
others, and no reaper holds a lock that somebody has pinned (`Inv`). The statement that pins takes
its locks one by one, and a session keeps them when the statement fails. `openReadGuard` returns the
session to the pool in that case, with what it holds: `failed_pin_keeps_pins`.
-/

namespace Pgvs3.Guard

open Codec List Option Conc
open Read (Moves Others)

variable {srv : Server} {w w' : World} {r c : Nat} {rd rd' : Read}

/-! ## The invariant -/

def Read.pinsOf (rd : Read) : Slot → List Int32
  | none => rd.held
  | some _ => []

/-- What the session holds is what its owner has it hold. -/
def Rightful (reads : List Read) (c : Nat) (s : Session) : Prop :=
  match s.owner with
  | .pool | .closed => s.pins = []
  | .lent r slot => ∃ rd, reads[r]? = some rd ∧ rd.uses slot = some c ∧ s.pins = rd.pinsOf slot

structure Inv (srv : Server) (w : World) : Prop where
  rightful : ∀ (c : Nat) (s : Session), w.sessions[c]? = some s → Rightful w.reads c s
  lends : ∀ (r : Nat) (rd : Read) (slot : Slot) (c : Nat), w.reads[r]? = some rd → rd.uses slot = some c →
    ∃ s, w.sessions[c]? = some s ∧ s.owner = .lent r slot
  sound : ∀ (r : Nat) (rd : Read), w.reads[r]? = some rd → rd.Sound srv w.chunks
  locked : ∀ rp ∈ w.reapers, ∀ key, rp.holds = some key → ∀ s ∈ w.sessions, key ∉ s.pins
  doomed : ∀ rp ∈ w.reapers, ∀ id rows, rp = .deleted id rows → ∀ x ∈ rows, x.fileID = id

variable {s : Session} {slot : Slot} {sessions : List Session} {op : SessionOp}

theorem Inv.lent (h : Inv srv w) (hr : w.reads[r]? = some rd) (hs : w.sessions[c]? = some s)
    (hown : s.owner = .lent r slot) : rd.uses slot = some c ∧ s.pins = rd.pinsOf slot := by
  have hright := h.rightful c s hs
  simp only [Rightful, hown] at hright
  obtain ⟨rd₁, hr₁, huse, hpins⟩ := hright
  cases hr.symm.trans hr₁
  exact ⟨huse, hpins⟩

theorem free_iff {key : Int32} : w.free key = true ↔ ∀ rp ∈ w.reapers, rp.holds ≠ some key := by
  simp [World.free]

/-- One session changes with read `r`: it was idle or the read had it, and it is idle or closed now
or the read has it. -/
theorem Rightful.set {reads : List Read} {t : Session} {d : Nat} (h : Rightful reads d t) (hr : reads[r]? = some rd)
    (hmine : ∀ slot, rd.uses slot = some d → rd'.uses slot = some d ∧ rd'.pinsOf slot = rd.pinsOf slot) :
    Rightful (reads.set r rd') d t := by
  unfold Rightful at h ⊢
  split at h
  · exact h
  · exact h
  · next r₁ slot _ =>
    obtain ⟨rd₁, hr₁, huse, hp⟩ := h
    by_cases hrr : r₁ = r
    · subst hrr
      cases hr.symm.trans hr₁
      exact ⟨rd', getElem?_set_self (List.getElem?_eq_some_iff.1 hr).1, (hmine slot huse).1, hp.trans (hmine slot huse).2.symm⟩
    · exact ⟨rd₁, (getElem?_set_ne (Ne.symm hrr)).trans hr₁, huse, hp⟩

theorem Inv.change (h : Inv srv w) (hr : w.reads[r]? = some rd) (hsound : rd'.Sound srv w.chunks) (hothers : Others rd rd' slot)
    {s' : Session} (hs : w.sessions[c]? = some s) (hold : (s.owner = .pool ∧ rd.uses slot = none) ∨ s.owner = .lent r slot)
    (hnew : (s'.owner = .lent r slot ∧ rd'.uses slot = some c ∧ s'.pins = rd'.pinsOf slot) ∨
      ((s'.owner = .pool ∨ s'.owner = .closed) ∧ rd'.uses slot = none ∧ s'.pins = []))
    (hpins : ∀ key ∈ s'.pins, key ∈ s.pins ∨ w.free key = true) :
    Inv srv { w with sessions := w.sessions.set c s', reads := w.reads.set r rd' } := by
  have hself : (w.reads.set r rd')[r]? = some rd' := getElem?_set_self (List.getElem?_eq_some_iff.1 hr).1
  -- no other session is in the slot
  have honly : ∀ d, rd.uses slot = some d → d = c := by
    intro d hd
    rcases hold with ⟨-, hnone⟩ | hown
    · cases hnone.symm.trans hd
    · exact some.inj (hd.symm.trans (h.lent hr hs hown).1)
  have hpinsOf : ∀ slot₁, slot₁ ≠ slot → rd'.pinsOf slot₁ = rd.pinsOf slot₁ := by
    intro slot₁ hne
    cases slot₁ with
    | none => exact hothers.2 (Ne.symm hne)
    | some i => rfl
  refine ⟨fun d t hd => ?_, fun r₁ rd₁ slot₁ d hr₁ hd => ?_, fun r₁ rd₁ hr₁ => ?_, fun rp hrp key hkey t ht hmem => ?_, h.doomed⟩
  · rcases getElem?_set_cases hd with ⟨rfl, rfl⟩ | ⟨hdc, hd⟩
    · rcases hnew with ⟨hown, huse, hp⟩ | ⟨hown | hown, -, hp⟩
      · simp only [Rightful, hown]
        exact ⟨rd', hself, huse, hp⟩
      · simp only [Rightful, hown]
        exact hp
      · simp only [Rightful, hown]
        exact hp
    · refine (h.rightful d t hd).set hr fun slot₁ huse => ?_
      have hne : slot₁ ≠ slot := by
        rintro rfl
        exact hdc (honly d huse)
      exact ⟨(hothers.1 slot₁ hne).trans huse, hpinsOf slot₁ hne⟩
  · -- a session that somebody else has is another one
    have hkeep : ∀ t : Session, w.sessions[d]? = some t → t.owner = .lent r₁ slot₁ → (r₁ ≠ r ∨ slot₁ ≠ slot) →
        ∃ t, (w.sessions.set c s')[d]? = some t ∧ t.owner = .lent r₁ slot₁ := by
      intro t ht hown hne
      refine ⟨t, (getElem?_set_ne ?_).trans ht, hown⟩
      rintro rfl
      cases hs.symm.trans ht
      rcases hold with ⟨hpool, -⟩ | hlent
      · cases hpool.symm.trans hown
      · cases hlent.symm.trans hown
        exact hne.elim (· rfl) (· rfl)
    rcases getElem?_set_cases hr₁ with ⟨rfl, rfl⟩ | ⟨hrr, hr₁⟩
    · by_cases hslot : slot₁ = slot
      · subst hslot
        rcases hnew with ⟨hown, huse, -⟩ | ⟨-, huse, -⟩
        · cases huse.symm.trans hd
          exact ⟨s', getElem?_set_self (List.getElem?_eq_some_iff.1 hs).1, hown⟩
        · cases huse.symm.trans hd
      · obtain ⟨t, ht, hown⟩ := h.lends r₁ rd slot₁ d hr ((hothers.1 slot₁ hslot).symm.trans hd)
        exact hkeep t ht hown (.inr hslot)
    · obtain ⟨t, ht, hown⟩ := h.lends r₁ rd₁ slot₁ d hr₁ hd
      exact hkeep t ht hown (.inl hrr)
  · rcases getElem?_set_cases hr₁ with ⟨-, rfl⟩ | ⟨-, hr₁⟩
    · exact hsound
    · exact h.sound r₁ rd₁ hr₁
  · rcases mem_set_cases ht with rfl | ⟨j, -, hj⟩
    · rcases hpins key hmem with hm | hfree
      · exact h.locked rp hrp key hkey s (mem_of_getElem? hs) hm
      · exact free_iff.1 hfree rp hrp hkey
    · exact h.locked rp hrp key hkey t (mem_of_getElem? hj) hmem

theorem Inv.keep (h : Inv srv w) (hr : w.reads[r]? = some rd) (hsound : rd'.Sound srv w.chunks)
    (huses : ∀ slot, rd'.uses slot = rd.uses slot) (hheld : rd.conn ≠ none → rd'.held = rd.held) :
    Inv srv { w with reads := w.reads.set r rd' } := by
  refine ⟨fun d t hd => ?_, fun r₁ rd₁ slot₁ d hr₁ hd => ?_, fun r₁ rd₁ hr₁ => ?_, h.locked, h.doomed⟩
  · refine (h.rightful d t hd).set hr fun slot₁ huse => ⟨(huses slot₁).trans huse, ?_⟩
    cases slot₁ with
    | none => exact hheld (by rw [show rd.conn = some d from huse]; nofun)
    | some i => rfl
  · rcases getElem?_set_cases hr₁ with ⟨rfl, rfl⟩ | ⟨-, hr₁⟩
    · exact h.lends r₁ rd slot₁ d hr ((huses slot₁).symm.trans hd)
    · exact h.lends r₁ rd₁ slot₁ d hr₁ hd
  · rcases getElem?_set_cases hr₁ with ⟨-, rfl⟩ | ⟨-, hr₁⟩
    · exact hsound
    · exact h.sound r₁ rd₁ hr₁

/-! ## Steps of reads -/

theorem Inv.using (h : Inv srv w) (hr : w.reads[r]? = some rd) (slot : Slot) {f : Session → Session}
    (hc : World.session.change w (rd.uses slot) f = some sessions) :
    ∃ c s, w.sessions[c]? = some s ∧ rd.uses slot = some c ∧ s.owner = .lent r slot ∧ s.pins = rd.pinsOf slot ∧
      sessions = w.sessions.set c (f s) := by
  unfold World.session.change at hc
  split at hc
  · cases hc
  · next c huse =>
    obtain ⟨s, hs, rfl⟩ := map_eq_some_iff.1 hc
    obtain ⟨s', hs', hown⟩ := h.lends r rd slot c hr huse
    cases hs.symm.trans hs'
    exact ⟨c, s, hs, huse, hown, (h.lent hr hs hown).2, rfl⟩

theorem diff_self (l : List Int32) : l.diff l = [] := by
  induction l with
  | nil => rfl
  | cons a l ih => rw [diff_cons, erase_cons_head, ih]

theorem Inv.read (h : Inv srv w) (hr : w.reads[r]? = some rd) (hsound : rd'.Sound srv w.chunks)
    (hmoves : Moves w.free rd rd' op) (hop : w.session r rd op = some sessions) :
    Inv srv { w with sessions := sessions, reads := w.reads.set r rd' } := by
  cases op with
  | keep =>
    cases hop
    exact h.keep hr hsound hmoves.1 hmoves.2
  | take slot c =>
    obtain ⟨hnone, huse, hothers, hheld⟩ := hmoves
    simp only [World.session] at hop
    split at hop
    · next s hs =>
      split at hop
      · next hpool =>
        cases hop
        have hpins : s.pins = [] := by
          have hright := h.rightful c s hs
          simpa only [Rightful, hpool] using hright
        refine h.change hr hsound hothers hs (.inl ⟨hpool, hnone⟩) (.inl ⟨rfl, huse, ?_⟩) fun key hk => .inl hk
        cases slot with
        | none => exact hpins.trans (hheld rfl).symm
        | some i => exact hpins
      · cases hop
    · cases hop
  | release slot =>
    obtain ⟨hnone, hothers, hheld⟩ := hmoves
    obtain ⟨c, s, hs, -, hown, hpins, rfl⟩ := h.using hr slot hop
    refine h.change hr hsound hothers hs (.inr hown) (.inr ⟨.inl rfl, hnone, hpins.trans ?_⟩) fun key hk => .inl hk
    cases slot with
    | none => exact hheld rfl
    | some i => rfl
  | destroy slot =>
    obtain ⟨c, s, hs, -, hown, -, rfl⟩ := h.using hr slot hop
    exact h.change hr hsound hmoves.2 hs (.inr hown) (.inr ⟨.inr rfl, hmoves.1, rfl⟩) nofun
  | lock key =>
    obtain ⟨huses, hheld, hfree⟩ := hmoves
    obtain ⟨c, s, hs, huse, hown, hpins, rfl⟩ := h.using hr none hop
    refine h.change hr hsound ⟨fun slot _ => huses slot, fun hne => absurd rfl hne⟩ hs (.inr hown)
      (.inl ⟨hown, (huses none).trans huse, ?_⟩) (forall_push (fun _ => .inl) (.inr hfree))
    show s.pins ++ [key] = rd'.held
    rw [hheld, hpins]
    rfl
  | unlock keys =>
    obtain ⟨huses, hkeys, hheld⟩ := hmoves
    obtain ⟨c, s, hs, huse, hown, hpins, rfl⟩ := h.using hr none hop
    have hdiff : s.pins.diff keys = [] := by
      rw [hkeys, hpins]
      exact diff_self rd.held
    refine h.change hr hsound ⟨fun slot _ => huses slot, fun hne => absurd rfl hne⟩ hs (.inr hown)
      (.inl ⟨hown, (huses none).trans huse, hdiff.trans hheld.symm⟩) fun k hk => ?_
    rw [show s.pins.diff keys = [] from hdiff] at hk
    cases hk

theorem Inv.start (h : Inv srv w) (pieces : List Piece) {n : Nat} (hn : 0 < n) :
    Inv srv { w with reads := w.reads ++ [Read.start pieces n] } := by
  have hquiet : (Read.start pieces n).Quiet := ⟨⟨n, hn, rfl, rfl⟩, rfl, rfl, rfl, rfl, rfl⟩
  refine ⟨fun c s hs => ?_, fun r rd slot c hr huse => ?_, fun r rd hr => ?_, h.locked, h.doomed⟩
  · have hright := h.rightful c s hs
    unfold Rightful at hright ⊢
    split at hright
    · exact hright
    · exact hright
    · obtain ⟨rd, hr, hrest⟩ := hright
      exact ⟨rd, (getElem?_append_left (List.getElem?_eq_some_iff.1 hr).1).trans hr, hrest⟩
  · rcases getElem?_push_cases hr with hr | rfl
    · exact h.lends r rd slot c hr huse
    · cases slot with
      | none => cases huse
      | some i => cases (hquiet.uses i).symm.trans huse
  · rcases getElem?_push_cases hr with hr | rfl
    · exact h.sound r rd hr
    · exact ⟨hquiet, rfl, rfl⟩

/-! ## Steps of the table -/

theorem Inv.chunks (h : Inv srv w) (chunks : List ChunkRow)
    (hrows : ∀ (r : Nat) (rd : Read), w.reads[r]? = some rd → rd.phase = .running → rd.snap = none → ∀ p ∈ rd.pieces,
      fileRows chunks p.fileID = fileRows w.chunks p.fileID) : Inv srv { w with chunks := chunks } :=
  ⟨h.rightful, h.lends, fun r rd hr => (h.sound r rd hr).frame (hrows r rd hr), h.locked, h.doomed⟩

theorem Inv.write (h : Inv srv w) {rows : List ChunkRow}
    (hnew : (rows.all fun x => w.reads.all fun rd => rd.pieces.all fun p => p.fileID != x.fileID) = true) :
    Inv srv { w with chunks := w.chunks ++ rows } := by
  refine h.chunks _ fun r rd hr _ _ p hp => ?_
  have hnone : fileRows rows p.fileID = [] := by
    refine filter_eq_nil_iff.2 fun x hx => ?_
    have hne := List.all_eq_true.1 (List.all_eq_true.1 (List.all_eq_true.1 hnew x hx) rd (mem_of_getElem? hr)) p hp
    simp only [bne_iff_ne] at hne
    simp [Ne.symm hne]
  rw [fileRows, filter_append, ← fileRows, ← fileRows, hnone, append_nil]

theorem fileRows_remove {rows : List ChunkRow} {id : Int64} (h : ∀ x ∈ rows, x.fileID ≠ id) :
    fileRows (w.remove rows).chunks id = fileRows w.chunks id := by
  show (w.chunks.filter fun r => !rows.contains r).filter (·.fileID == id) = _
  rw [List.filter_filter, fileRows]
  refine filter_congr fun x _ => ?_
  by_cases hx : x.fileID = id
  · have hno : x ∉ rows := fun hm => h x hm hx
    simp [hx, hno]
  · simp [hx]

theorem Inv.pinned (h : Inv srv w) (hr : w.reads[r]? = some rd) (hph : rd.phase = .running) (hs : rd.snap = none) :
    srv.inRecovery = false ∧ ∃ c s, rd.conn = some c ∧ w.sessions[c]? = some s ∧ s.pins = pinKeys rd.pieces := by
  have hsound := h.sound r rd hr
  simp only [Read.Sound, hph] at hsound
  obtain ⟨hcore, hcount⟩ := hsound
  obtain ⟨hrec, hkeys, -⟩ := hcore.pinned hs
  obtain ⟨c, hc⟩ := ne_none_iff_exists'.1 (hcount.pinned hs).2
  obtain ⟨s, hsess, hown⟩ := h.lends r rd none c hr hc
  refine ⟨hrec, c, s, hc, hsess, (h.lent hr hsess hown).2.trans ?_⟩
  simp [Read.pinsOf, Read.held, hph, hkeys]

/-- The reaper changes its place; what it holds now it held before, or nobody has pinned it. -/
theorem Inv.reaper (h : Inv srv w) {k : Nat} {rp rp' : Reaper} (hk : w.reapers[k]? = some rp)
    (hholds : ∀ key, rp'.holds = some key → rp.holds = some key ∨ ∀ s ∈ w.sessions, key ∉ s.pins)
    (hrows : ∀ id rows, rp' = .deleted id rows → ∀ x ∈ rows, x.fileID = id) : Inv srv { w with reapers := w.reapers.set k rp' } := by
  refine ⟨h.rightful, h.lends, h.sound, fun q hq key hkey => ?_, fun q hq => ?_⟩
  · rcases mem_set_cases hq with rfl | ⟨j, -, hj⟩
    · rcases hholds key hkey with hold | hfree
      · exact h.locked rp (mem_of_getElem? hk) key hold
      · exact hfree
    · exact h.locked q (mem_of_getElem? hj) key hkey
  · rcases mem_set_cases hq with rfl | ⟨j, -, hj⟩
    · exact hrows
    · exact h.doomed q (mem_of_getElem? hj)

theorem Inv.reap (h : Inv srv w) {k : Nat} {rp : Reaper} (hk : w.reapers[k]? = some rp) {a : ReapAct} (hn : w.reap k rp a = some w') :
    Inv srv w' := by
  cases a with
  | candidates ids =>
    simp only [World.reap] at hn
    split at hn
    · cases hn
      exact h.reaper hk nofun nofun
    · cases hn
  | claim =>
    simp only [World.reap] at hn
    split at hn
    · cases hn
      exact h.reaper hk nofun nofun
    · next id ids =>
      cases hn
      split
      · next hun =>
        refine h.reaper hk (fun key hkey => .inr fun s hs hm => ?_) nofun
        cases hkey
        have hall := List.all_eq_true.1 (Bool.and_eq_true_iff.1 hun).2 s hs
        simp only [Bool.not_eq_true', contains_eq_mem, decide_eq_false_iff_not] at hall
        exact hall hm
      · exact h.reaper hk nofun nofun
    · cases hn
  | delete referenced rows =>
    simp only [World.reap] at hn
    split at hn
    · next id =>
      split at hn
      · cases hn
        exact h.reaper hk nofun nofun
      · split at hn
        · next hall =>
          cases hn
          refine h.reaper hk (fun key hkey => .inl hkey) fun id' rows' heq x hx => ?_
          cases heq
          exact beq_iff_eq.1 (List.all_eq_true.1 hall x hx)
        · cases hn
    · cases hn
  | commit =>
    simp only [World.reap] at hn
    split at hn
    · next id rows =>
      cases hn
      have hmem := mem_of_getElem? hk
      -- the lock on the file's key says that no running read has pinned it
      have hremove : Inv srv (w.remove rows) := by
        refine h.chunks _ fun r rd hr hph hs p hp => fileRows_remove fun x hx heq => ?_
        obtain ⟨-, c, s, -, hsess, hpins⟩ := h.pinned hr hph hs
        refine h.locked _ hmem (pinKey id) rfl s (mem_of_getElem? hsess) ?_
        rw [hpins, ← h.doomed _ hmem id rows rfl x hx, heq]
        exact pinKey_mem_pinKeys hp
      exact hremove.reaper hk nofun nofun
    · cases hn
  | rollback =>
    cases hn
    exact h.reaper hk nofun nofun

/-- Only the statement that pins fails so, and it has pinned nothing. -/
theorem held_of_clean (hr : w.reads[r]? = some rd) (hclean : failsClean w (.read r .pinFails) = true) {free : Int32 → Bool}
    (hstep : rd.step srv w.chunks free .pinFails = some (rd', op)) : rd.held = [] := by
  simp only [failsClean, hr] at hclean
  cases hph : rd.phase with
  | pinning todo got =>
    simp only [hph, beq_iff_eq] at hclean
    simp [Read.held, hph, hclean]
  | acquiring | reacquiring | exporting | releasing | done => simp only [Read.held, hph]
  | unpinning | running =>
    simp only [Read.step, hph] at hstep
    cases hstep

theorem Inv.next (h : Inv srv w) {a : Act} (hclean : failsClean w a = true) (hn : w.next? srv a = some w') : Inv srv w' := by
  cases a with
  | start pieces n =>
    simp only [World.next?] at hn
    split at hn
    · next hpos =>
      cases hn
      exact h.start pieces hpos
    · cases hn
  | read r a =>
    simp only [World.next?] at hn
    split at hn
    · cases hn
    · next rd hr =>
      split at hn
      · cases hn
      · next rd' op hstep =>
        split at hn
        · cases hn
        · next sessions hop =>
          cases hn
          obtain ⟨hsound, hmoves⟩ := Read.step_sound (h.sound r rd hr) (fun ha => held_of_clean hr (ha ▸ hclean) (ha ▸ hstep)) hstep
          exact h.read hr hsound hmoves hop
  | reap k a =>
    simp only [World.next?] at hn
    split at hn
    · cases hn
    · split at hn
      · cases hn
      · next rp hk => exact h.reap hk hn
  | write rows =>
    simp only [World.next?] at hn
    split at hn
    · next hnew =>
      cases hn
      exact h.write hnew
    · cases hn
  | replay rows =>
    simp only [World.next?] at hn
    split at hn
    · next hrec =>
      cases hn
      refine h.chunks _ fun r rd hr hph hs p hp => ?_
      cases (h.pinned hr hph hs).1.symm.trans hrec
    · cases hn

theorem Inv.initial (chunks : List ChunkRow) (sessions reapers : Nat) : Inv srv (.start chunks sessions reapers) := by
  refine ⟨fun c s hs => ?_, nofun, nofun, fun rp hrp key hkey => ?_, fun rp hrp id rows heq => ?_⟩
  · obtain ⟨-, rfl⟩ := mem_replicate.1 (mem_of_getElem? hs)
    rfl
  · obtain ⟨-, rfl⟩ := mem_replicate.1 hrp
    cases hkey
  · obtain ⟨-, rfl⟩ := mem_replicate.1 hrp
    cases heq

/-! ## Reads that meet no failure -/

def ReadAct.fails : ReadAct → Bool
  | .noConn | .pinFails | .exportFails | .giveUp _ true | .importFails _ true | .queryFails _ => true
  | _ => false

def Act.fails (r : Nat) : Act → Bool
  | .read r' a => r' == r && a.fails
  | _ => false

namespace Read

structure Unhurt (rd : Read) : Prop where
  failed : rd.failed = false
  phase : rd.phase ≠ .done true
  workers : .gaveUp true ∉ rd.workers

theorem Unhurt.of_same (h : rd.Unhurt) (hf : rd'.failed = rd.failed) (hph : rd'.phase ≠ .done true) (hw : rd'.workers = rd.workers) :
    rd'.Unhurt :=
  ⟨hf.trans h.failed, hph, hw ▸ h.workers⟩

variable {i : Nat} {wk : Worker} {a : ReadAct}

section

variable (h : rd.Unhurt)
include h

theorem Unhurt.put (hw : rd'.workers = (rd.put i wk).workers) (hf : rd'.failed = rd.failed)
    (hph : rd'.phase = rd.phase) (hwk : wk ≠ .gaveUp true) : rd'.Unhurt := by
  refine ⟨hf.trans h.failed, hph ▸ h.phase, fun hmem => ?_⟩
  rw [hw] at hmem
  rcases mem_or_eq_of_mem_set hmem with hmem | heq
  · exact h.workers hmem
  · exact hwk heq.symm

theorem Unhurt.joined : rd.joined.1.Unhurt := by
  unfold Read.joined
  dsimp only
  split
  · unfold endExport
    split
    · exact h.of_same rfl h.phase rfl
    · exact h.of_same rfl h.phase rfl
  · exact h.of_same rfl h.phase rfl

theorem works_unhurt {chunks : List ChunkRow} (hcount : rd.Counted)
    (hi : rd.workers[i]? = some wk) (ha : a.fails = false) (hn : rd.works chunks i wk a = some (rd', op)) : rd'.Unhurt := by
  have hmem := mem_of_getElem? hi
  unfold works at hn
  split at hn
  · split at hn <;> cases hn
    exact h.put rfl rfl rfl nofun
  · split at hn <;> cases hn
    exact h.put rfl rfl rfl nofun
  · next err =>
    split at hn <;> cases hn
    cases err with
    | true => cases ha
    | false => exact h.put rfl rfl rfl nofun
  · split at hn
    · next hended => cases (hcount.open_of_unjoined hmem rfl).symm.trans hended
    · cases hn
      exact h.put rfl rfl rfl nofun
  · next err =>
    split at hn <;> cases hn
    cases err with
    | true => cases ha
    | false => exact h.put rfl rfl rfl nofun
  · obtain ⟨rfl, -⟩ : rd' = _ ∧ op = _ := Prod.ext_iff.1 (some.inj hn).symm
    exact Unhurt.joined (h.put rfl rfl rfl nofun)
  · next err _ =>
    obtain ⟨rfl, -⟩ : rd' = _ ∧ op = _ := Prod.ext_iff.1 (some.inj hn).symm
    cases err with
    | true => exact absurd hmem h.workers
    | false => exact Unhurt.joined (h.put rfl (Bool.or_false _) rfl nofun)
  · split at hn
    · cases hn
      exact h.put rfl rfl rfl nofun
    · split at hn <;> cases hn <;> exact h.put rfl rfl rfl nofun
  · split at hn
    · cases hn
    · split at hn <;> cases hn
      exact h.put rfl rfl rfl nofun
  · cases ha
  · obtain ⟨rfl, -⟩ : rd' = _ ∧ op = _ := Prod.ext_iff.1 (some.inj hn).symm
    exact Unhurt.joined (h.put rfl rfl rfl nofun)
  · cases hn
    exact h.put rfl rfl rfl nofun
  · cases hn

theorem opens_unhurt {chunks : List ChunkRow} {free : Int32 → Bool} {ph : Phase}
    (ha : a.fails = false) (hn : rd.opens srv chunks free ph a = some (rd', op)) : rd'.Unhurt := by
  unfold opens at hn
  split at hn
  · cases hn
    refine h.of_same rfl ?_ rfl
    split <;> nofun
  · cases hn
    exact h.of_same rfl nofun rfl
  · cases ha
  · cases ha
  · split at hn <;> cases hn <;> exact h.of_same rfl nofun rfl
  · split at hn
    · cases hn
      exact h.of_same rfl nofun rfl
    · split at hn <;> cases hn <;> exact h.of_same rfl nofun rfl
  · cases ha
  · split at hn <;> cases hn <;> exact h.of_same rfl nofun rfl
  · cases hn
    exact h.of_same rfl nofun rfl
  · cases ha
  · cases hn

theorem closes_unhurt (ok : Bool) : (rd.closes ok).1.Unhurt := by
  have hdone : Phase.done rd.failed ≠ .done true := by
    rw [h.failed]
    simp
  unfold closes
  split
  · unfold endExport
    split
    · exact h.of_same rfl hdone rfl
    · exact h.of_same rfl hdone rfl
  · split
    · exact h.of_same rfl nofun rfl
    · exact h.of_same rfl hdone rfl

theorem step_unhurt {chunks : List ChunkRow} {free : Int32 → Bool} (hsound : rd.Sound srv chunks)
    (ha : a.fails = false) (hn : rd.step srv chunks free a = some (rd', op)) : rd'.Unhurt := by
  unfold step at hn
  split at hn
  · next ok _ =>
    split at hn
    · obtain ⟨rfl, -⟩ : rd' = _ ∧ op = _ := Prod.ext_iff.1 (some.inj hn).symm
      exact closes_unhurt h ok
    · cases hn
  · next hph _ =>
    simp only [Sound, hph] at hsound
    split at hn
    · cases hn
    · split at hn
      · cases hn
      · next hi => exact works_unhurt h hsound.2 hi ha hn
  · cases hn
    refine h.of_same rfl ?_ rfl
    rw [h.failed]
    simp
  · exact opens_unhurt h ha hn

end

end Read

theorem Inv.unhurt {a : Act} (h : Inv srv w) (ha : a.fails r = false) (hn : w.next? srv a = some w')
    (hr : ∀ rd, w.reads[r]? = some rd → rd.Unhurt) : ∀ rd, w'.reads[r]? = some rd → rd.Unhurt := by
  cases a with
  | start pieces n =>
    simp only [World.next?] at hn
    split at hn <;> cases hn
    intro rd hrd
    rcases getElem?_push_cases hrd with hrd | rfl
    · exact hr rd hrd
    · exact ⟨rfl, nofun, fun hmem => nomatch (mem_replicate.1 hmem).2⟩
  | read r' a =>
    simp only [World.next?] at hn
    split at hn
    · cases hn
    · next rd hrd =>
      split at hn
      · cases hn
      · next rd' op hstep =>
        split at hn
        · cases hn
        · cases hn
          intro rd₁ hrd₁
          rcases getElem?_set_cases hrd₁ with ⟨rfl, rfl⟩ | ⟨-, hrd₁⟩
          · simp only [Act.fails, beq_self_eq_true, Bool.true_and] at ha
            exact Read.step_unhurt (hr rd hrd) (h.sound r rd hrd) ha hstep
          · exact hr rd₁ hrd₁
  | reap k a =>
    have hreads : w'.reads = w.reads := by
      simp only [World.next?, World.reap] at hn
      split at hn
      · cases hn
      · split at hn
        · cases hn
        · repeat' (split at hn)
          all_goals cases hn
          all_goals rfl
    rw [hreads]
    exact hr
  | write | replay =>
    simp only [World.next?] at hn
    split at hn <;> cases hn
    exact hr

/-! ## What a read gives -/

namespace Read

def answer (rd : Read) (p : Piece) : Option (List RawRow) := (rd.answers.find? fun x => rd.pieces[x.1]? == some p).map (·.2)

/-- What the workers stream: the answers, for the pieces that needed a query. -/
def rows (rd : Read) (p : Piece) : List RawRow := (rd.answer p).getD (getRange rd.base p)

/-- Every piece was answered, and a span of an object whose files were there at the beginning is
complete. Where the block cache is in use, the aligned pieces have to stay inside their segments. -/
structure Whole (rd : Read) : Prop where
  answered : ∀ p ∈ rd.pieces, rd.answer p ≠ none
  span : ∀ (g : Gateway) (m : Meta) (content : Nat → Int64 → Bytes) (ids : List Int64) (ans : Answers) (rng : ByteRange) (span : Span)
    (workers : Nat), ans.rows = rd.rows → m.Describes (content m.table) ids → rng.resolve m.size = some span →
    (∀ s ∈ touched (content m.table) ids span.start.toNat span.stop.toNat, Stored g.z rd.base (content m.table) s.fileID) →
    (g.table m = 0 ∨ FromCache g.z content m.table ans ∧ Kept ans m span workers) →
    ∀ r, Reads g ans m rng workers r → r = some ((ids.flatMap (content m.table)).extract span.start.toNat (span.stop + 1).toNat)

theorem Right.rows (h : rd.Right) (p : Piece) : (rd.rows p).Perm (getRange rd.base p) := by
  unfold Read.rows answer
  cases hfind : rd.answers.find? fun x => rd.pieces[x.1]? == some p with
  | none => exact .refl _
  | some x =>
    obtain ⟨p', hp', hperm⟩ := h x (mem_of_find?_eq_some hfind)
    have hp := find?_some hfind
    rw [beq_iff_eq] at hp
    cases hp.symm.trans hp'
    exact hperm

theorem Over.whole (h : rd.Over) (hf : rd.failed = false) : rd.Whole := by
  refine ⟨fun p hp => ?_, fun g m content ids ans rng span workers hrows hm hspan hst hcache r hr => ?_⟩
  · obtain ⟨j, hj⟩ := mem_iff_getElem?.1 hp
    obtain ⟨rows, hans⟩ := h.complete hf j (List.getElem?_eq_some_iff.1 hj).1
    have hsome : (rd.answers.find? fun x => rd.pieces[x.1]? == some p).isSome :=
      find?_isSome.2 ⟨(j, rows), hans, beq_iff_eq.2 hj⟩
    simpa [answer, isSome_iff_ne_none] using hsome
  · have htouching : Touching g.z rd.base (content m.table) ids span.start.toNat span.stop.toNat ans :=
      ⟨hst, fun p => hrows ▸ h.right.rows p⟩
    by_cases htable : g.table m = 0
    · exact (htouching.reads_plain htable hm hspan workers r).1 hr
    · obtain ⟨hfrom, hkept⟩ := hcache.resolve_left htable
      have hblocks : g.blocks = true := by
        by_contra hno
        exact htable (table_of_plain (Bool.eq_false_of_not_eq_true hno) m)
      have hm0 : m.table ≠ 0 := by rwa [Gateway.table, hblocks, if_pos rfl] at htable
      rcases htouching.reads_cached g content hblocks hm0 hm hfrom hspan workers hr with ⟨-, hsome⟩ | ⟨hno, -⟩
      · exact hsome
      · exact absurd hkept hno

end Read

structure Guarded (w : World) : Prop where
  /-- No session is idle with a pin held. -/
  idle : ∀ s ∈ w.sessions, s.owner = .pool → s.pins = []
  /-- A read that pins holds all of its pins until it is closed. -/
  pinned : ∀ rd ∈ w.reads, rd.phase = .running → rd.snap = none →
    ∃ c s, rd.conn = some c ∧ w.sessions[c]? = some s ∧ s.pins = pinKeys rd.pieces
  /-- An export lasts as long as a worker may want to import it. -/
  exported : ∀ rd ∈ w.reads, rd.phase = .running → ∀ wk ∈ rd.workers, wk.unjoined = true → rd.ended = false
  whole : ∀ rd ∈ w.reads, rd.phase = .done false → rd.Whole

theorem Inv.guarded (h : Inv srv w) : Guarded w := by
  refine ⟨fun s hs hown => ?_, fun rd hrd hph hs => ?_, fun rd hrd hph wk hwk hu => ?_, fun rd hrd hph => ?_⟩
  · obtain ⟨c, hc⟩ := mem_iff_getElem?.1 hs
    have hright := h.rightful c s hc
    simpa only [Rightful, hown] using hright
  all_goals
    obtain ⟨r, hr⟩ := mem_iff_getElem?.1 hrd
    have hsound := h.sound r rd hr
    simp only [Read.Sound, hph] at hsound
  · exact (h.pinned hr hph hs).2
  · exact hsound.2.open_of_unjoined hwk hu
  · obtain ⟨hover, hf⟩ := hsound.2.2 trivial
    exact hover.whole hf

/-- In every run in which no statement that pins fails after it has pinned something: no idle
session holds a pin, no pin of a running read goes, no export ends while it is wanted, a read that
ends without an error has all of its span, and only the database fails a read. -/
theorem guarded_of_failsClean (srv : Server) (chunks : List ChunkRow) (sessions reapers : Nat) (acts : List Act) (w : World)
    (hclean : (machine srv).Allowed (fun w a => failsClean w a = true) (.start chunks sessions reapers) acts)
    (hrun : (machine srv).run (.start chunks sessions reapers) acts = some w) :
    Guarded w ∧ ∀ (r : Nat) (rd : Read), w.reads[r]? = some rd → (∀ a ∈ acts, a.fails r = false) → rd.phase ≠ .done true := by
  refine ⟨?_, fun r rd hr hok => ?_⟩
  · exact (Machine.invariant (M := machine srv) (fun w a w' h hc hn => Inv.next h hc hn) (Inv.initial chunks sessions reapers) hclean
      hrun).guarded
  · have hstep : ∀ (w : World) (a : Act) (w' : World), (Inv srv w ∧ ∀ rd, w.reads[r]? = some rd → rd.Unhurt) →
        (failsClean w a = true ∧ a.fails r = false) → w.next? srv a = some w' → Inv srv w' ∧ ∀ rd, w'.reads[r]? = some rd → rd.Unhurt :=
      fun w a w' h hc hn => ⟨h.1.next hc.1 hn, h.1.unhurt hc.2 hn h.2⟩
    have hinv := Machine.invariant (M := machine srv) hstep ⟨Inv.initial chunks sessions reapers, nofun⟩ (hclean.and hok) hrun
    exact (hinv.2 rd hr).phase

def twoFiles : List ChunkRow := [⟨1, 0, [7]⟩, ⟨2, 0, [8]⟩]

def twoPieces : List Piece := [⟨1, 0, 1, 0, 0⟩, ⟨2, 1, 1, 0, 0⟩]

def work (r : Nat) : List Act :=
  [.read r .lead, .read r (.join 1 1), .read r (.importSnapshot 1), .read r (.joined 1), .read r (.claim 0), .read r (.claim 1),
    .read r (.query 1 [(0, [8])]), .read r (.query 0 [(0, [7])]), .read r (.claim 0),
    .read r (.claim 1), .read r (.leave 1), .read r (.leave 0)]

/-- The first read pins both files, and the reaper leaves them. Then the reaper takes the second
file, so that the second read exports a snapshot; then the file goes. -/
def twoReads : List Act :=
  [Act.start twoPieces 2, .read 0 (.acquire 0), .read 0 .pin, .read 0 .pin, .read 0 .pin, .reap 0 (.candidates [2]), .reap 0 .claim,
    .reap 0 .claim] ++ work 0 ++ [Act.read 0 (.close true), .read 0 .release] ++
  [Act.reap 0 (.candidates [2]), .reap 0 .claim, .start twoPieces 2, .read 1 (.acquire 0), .read 1 .pin, .read 1 .pin, .read 1 .pin,
    .read 1 (.unpin true), .read 1 .exportSnapshot, .reap 0 (.delete false [⟨2, 0, [8]⟩]), .reap 0 .commit] ++ work 1 ++
  [Act.read 1 (.close true)]

theorem twoReads_guarded : ∃ w, (machine ⟨false, false⟩).run (.start twoFiles 2 1) twoReads = some w ∧ w.chunks = [⟨1, 0, [7]⟩] ∧
    w.reads.map Read.phase = [.done false, .done false] ∧ Guarded w := by
  have hends : ((machine ⟨false, false⟩).runIf (fun w a => failsClean w a = true) (.start twoFiles 2 1) twoReads).map
      (fun w => (w.chunks, w.reads.map Read.phase)) = some ([⟨1, 0, [7]⟩], [.done false, .done false]) := by
    decide +kernel
  obtain ⟨w, hw, hh⟩ := map_eq_some_iff.1 hends
  obtain ⟨hclean, hrun⟩ := Machine.runIf_spec hw
  obtain ⟨hchunks, hphase⟩ := Prod.mk.inj hh
  exact ⟨w, hrun, hchunks, hphase, (guarded_of_failsClean ⟨false, false⟩ twoFiles 2 1 twoReads w hclean hrun).1⟩

/-- The statement that pins two files fails after the first, and the session is idle with a pin. -/
theorem failed_pin_keeps_pins : ¬ ∀ (srv : Server) (chunks : List ChunkRow) (sessions reapers : Nat) (acts : List Act) (w : World),
    (machine srv).run (.start chunks sessions reapers) acts = some w → Guarded w := by
  intro hclaim
  have hends : ((machine ⟨false, false⟩).run (.start twoFiles 1 0)
      [Act.start twoPieces 2, .read 0 (.acquire 0), .read 0 .pin, .read 0 .pinFails]).map World.sessions = some [⟨.pool, [1]⟩] := by
    decide +kernel
  obtain ⟨w, hrun, hsess⟩ := map_eq_some_iff.1 hends
  have hidle := (hclaim _ _ _ _ _ w hrun).idle ⟨.pool, [1]⟩ (by rw [hsess]; exact mem_singleton.2 rfl) rfl
  cases hidle

end Pgvs3.Guard
