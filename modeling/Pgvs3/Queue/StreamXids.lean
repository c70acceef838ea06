import Pgvs3.Queue.StreamCursors
/-!
# Transaction ids, snapshots and segments

`Xids`: no snapshot ever taken sees a transaction that has not finished, so what a tick sees is
committed and stays so. `Segs`: appends go to the current segment, a sealed segment holds only what
was appended before its seal, and while a rotation holds the advisory lock nobody appends. Both hold
in every run.
-/

namespace Pgvs3.Stream

open List Function

/-- The transaction has drawn its xid and has ended. -/
def World.Finished (w : World) (x : Nat) : Prop := x < w.xid ∧ x ∉ w.running

def Tx.stamp : Tx → Option Snapshot
  | .receive _ (.stamped _ s _) => some s
  | _ => none

def Tx.segment : Tx → Option Nat
  | .append g _ | .retries g _ _ | .due g _ => some g
  | _ => none

def Tx.rows : Tx → List Event
  | .written _ rows _ => rows
  | _ => []

/-- No xid is given out twice or comes back. -/
def World.Later (w w' : World) : Prop := w.xid ≤ w'.xid ∧ ∀ x ∈ w'.running, x ∈ w.running ∨ w.xid ≤ x

variable {w w' : World} {x i m : Nat} {t t' : Tx} {a : Act}

theorem World.Later.finished (h : w.Later w') (hx : w.Finished x) : w'.Finished x := by
  refine ⟨Nat.lt_of_lt_of_le hx.1 h.1, fun hrun => ?_⟩
  rcases h.2 x hrun with hold | hnew
  · exact hx.2 hold
  · exact absurd hx.1 (Nat.not_lt.2 hnew)

theorem mem_running : x ∈ w.running ↔ (∃ t ∈ w.txs, t.xid = some x) ∨ ∃ r ∈ w.rotation, r.xid? = some x := by
  simp [World.running, mem_filterMap, Option.bind_eq_some_iff]

structure Xids (w : World) : Prop where
  drawn : ∀ x ∈ w.running, x < w.xid
  excl : Conc.Exclusive Tx.xid w.txs
  rot : ∀ r ∈ w.rotation, ∀ x, r.xid? = some x → ∀ t ∈ w.txs, t.xid ≠ some x
  log : ∀ e ∈ w.hist.log, w.Finished e.txid
  snaps : ∀ n s, w.cur.snaps n = some s → ∀ x, s.sees x → w.Finished x
  stamp : ∀ t ∈ w.txs, ∀ s ∈ t.stamp, ∀ x, s.sees x → w.Finished x

theorem Xids.later (h : Xids w) (hxid : w.xid ≤ w'.xid)
    (hrun : ∀ x ∈ w'.running, (x = w.xid ∧ w.xid < w'.xid) ∨ x ∈ w.running) : w.Later w' ∧ ∀ x ∈ w'.running, x < w'.xid := by
  refine ⟨⟨hxid, fun x hx => ?_⟩, fun x hx => ?_⟩
  · rcases hrun x hx with ⟨rfl, -⟩ | hx
    · exact .inr (le_rfl)
    · exact .inl hx
  · rcases hrun x hx with ⟨rfl, hlt⟩ | hx
    · exact hlt
    · exact Nat.lt_of_lt_of_le (h.drawn x hx) hxid

theorem Xids.step (h : Xids w) (hi : w.txs[i]? = some t) (htxs : w'.txs = w.txs.set i t')
    (hxid : w.xid ≤ w'.xid) (hx : ∀ x, t'.xid = some x → x = w.xid ∧ w.xid < w'.xid) (hrot : w'.rotation = w.rotation)
    (hlog : ∀ e ∈ w'.hist.log, e ∈ w.hist.log ∨ w'.Finished e.txid)
    (hsnaps : ∀ n s, w'.cur.snaps n = some s → w.cur.snaps n = some s ∨ t.stamp = some s)
    (hstamp : ∀ s ∈ t'.stamp, s = w.snapshot) : Xids w' := by
  have hmem : ∀ u ∈ w'.txs, u = t' ∨ u ∈ w.txs := fun u hu => by
    rw [htxs] at hu
    exact (mem_or_eq_of_mem_set hu).symm
  have hrun : ∀ x ∈ w'.running, (x = w.xid ∧ w.xid < w'.xid) ∨ x ∈ w.running := by
    intro x hx'
    rcases mem_running.1 hx' with ⟨u, hu, hux⟩ | ⟨r, hr, hrx⟩
    · rcases hmem u hu with rfl | hu
      · exact .inl (hx x hux)
      · exact .inr (mem_running.2 (.inl ⟨u, hu, hux⟩))
    · exact .inr (mem_running.2 (.inr ⟨r, hrot ▸ hr, hrx⟩))
  obtain ⟨hl, hdrawn⟩ := h.later hxid hrun
  -- nobody has the next xid yet
  have hnew : w.xid ∉ w.running := fun hmem => absurd (h.drawn _ hmem) (Nat.lt_irrefl _)
  refine ⟨hdrawn, ?_, ?_, ?_, ?_, ?_⟩
  · rw [htxs]
    refine h.excl.set hi fun r hr => .inr fun u hu hur => ?_
    rw [(hx r hr).1] at hur
    exact hnew (mem_running.2 (.inl ⟨u, hu, hur⟩))
  · intro r hr x hrx u hu hux
    have hr' : r ∈ w.rotation := hrot ▸ hr
    rcases hmem u hu with rfl | hu
    · rw [(hx x hux).1] at hrx
      exact hnew (mem_running.2 (.inr ⟨r, hr', hrx⟩))
    · exact h.rot r hr' x hrx u hu hux
  · intro e he
    rcases hlog e he with he | hfin
    · exact hl.finished (h.log e he)
    · exact hfin
  · intro n s hn x hsx
    rcases hsnaps n s hn with hn | hs
    · exact hl.finished (h.snaps n s hn x hsx)
    · exact hl.finished (h.stamp t (mem_of_getElem? hi) s hs x hsx)
  · intro u hu s hs x hsx
    rcases hmem u hu with rfl | hu
    · rw [hstamp s hs] at hsx
      exact hl.finished hsx
    · exact hl.finished (h.stamp u hu s hs x hsx)

theorem Xids.turn (h : Xids w) (htxs : w'.txs = w.txs) (hxid : w.xid ≤ w'.xid)
    (hx : ∀ r ∈ w'.rotation, ∀ x, r.xid? = some x → (x = w.xid ∧ w.xid < w'.xid) ∨ r ∈ w.rotation) (hlog : w'.hist.log = w.hist.log)
    (hsnaps : w'.cur.snaps = w.cur.snaps) : Xids w' := by
  have hrun : ∀ x ∈ w'.running, (x = w.xid ∧ w.xid < w'.xid) ∨ x ∈ w.running := by
    intro x hx'
    rcases mem_running.1 hx' with ⟨u, hu, hux⟩ | ⟨r, hr, hrx⟩
    · exact .inr (mem_running.2 (.inl ⟨u, htxs ▸ hu, hux⟩))
    · rcases hx r hr x hrx with hnew | hr
      · exact .inl hnew
      · exact .inr (mem_running.2 (.inr ⟨r, hr, hrx⟩))
  obtain ⟨hl, hdrawn⟩ := h.later hxid hrun
  refine ⟨hdrawn, htxs ▸ h.excl, ?_, ?_, ?_, ?_⟩
  · intro r hr x hrx u hu hux
    rcases hx r hr x hrx with ⟨rfl, -⟩ | hr
    · exact absurd (h.drawn _ (mem_running.2 (.inl ⟨u, htxs ▸ hu, hux⟩))) (Nat.lt_irrefl _)
    · exact h.rot r hr x hrx u (htxs ▸ hu) hux
  · intro e he
    exact hl.finished (h.log e (hlog ▸ he))
  · intro n s hn x hsx
    exact hl.finished (h.snaps n s (hsnaps ▸ hn) x hsx)
  · intro u hu s hs x hsx
    exact hl.finished (h.stamp u (htxs ▸ hu) s hs x hsx)

theorem stage_facts (hs : Stage w t t') :
    t'.xid = none ∧ (∀ s ∈ t'.stamp, s = w.snapshot) ∧ t'.rows = [] ∧ (∀ g ∈ t'.segment, g = w.seg.current ∨ t.segment = some g) ∧
      (t'.shared = true → t.shared = true ∨ w.rotation = none) := by
  cases hs with
  | append _ hr | retries _ _ hr => exact ⟨rfl, nofun, rfl, fun g hg => .inl (Option.some.inj hg).symm, fun _ => .inr hr⟩
  | subscribe _ _ hr | asking _ _ _ _ hr => exact ⟨rfl, nofun, rfl, nofun, fun _ => .inr hr⟩
  | due segment limit began picked => exact ⟨rfl, nofun, rfl, fun g hg => .inr hg, fun _ => .inl rfl⟩
  | stamped r startAt => exact ⟨rfl, fun s hs => (Option.some.inj hs).symm, rfl, nofun, fun _ => .inl rfl⟩
  | ack | prune | stop | chained => exact ⟨rfl, nofun, rfl, nofun, nofun⟩
  | _ => exact ⟨rfl, nofun, rfl, nofun, fun _ => .inl rfl⟩

theorem enrol_snaps (w : World) (r : Receive) : (w.enrol r).cur.snaps = w.cur.snaps := by
  unfold World.enrol
  split <;> rfl

theorem enrol_log (w : World) (r : Receive) : (w.enrol r).hist.log = w.hist.log ∧ (w.enrol r).hist.gone = w.hist.gone := by
  unfold World.enrol
  split <;> exact ⟨rfl, rfl⟩

theorem enrol_rest (w : World) (r : Receive) : (w.enrol r).xid = w.xid ∧ (w.enrol r).rotation = w.rotation ∧ (w.enrol r).seg = w.seg := by
  unfold World.enrol
  split <;> exact ⟨rfl, rfl, rfl⟩

theorem xids_next (h : Xids w) (hw : ∀ t ∈ w.txs, ∀ e ∈ t.rows, t.xid = some e.txid) (hs : Step w a w') : Xids w' := by
  cases hs with
  | connect =>
    have hmem : ∀ u ∈ w.txs ++ [Tx.idle], u ∈ w.txs ∨ u = .idle := by simp
    have hrun : World.running { w with txs := w.txs ++ [.idle] } = w.running := by simp [World.running, filterMap_append, Tx.xid]
    have hl : w.Later { w with txs := w.txs ++ [.idle] } := ⟨le_rfl, fun x hx => .inl (hrun ▸ hx)⟩
    refine ⟨fun x hx => h.drawn x (hrun ▸ hx), h.excl.push rfl, fun r hr x hrx u hu => ?_, fun e he => hl.finished (h.log e he),
      fun n s hn x hsx => hl.finished (h.snaps n s hn x hsx), fun u hu s hs x hsx => ?_⟩
    · rcases hmem u hu with hu | rfl
      · exact h.rot r hr x hrx u hu
      · nofun
    · rcases hmem u hu with hu | rfl
      · exact hl.finished (h.stamp u hu s hs x hsx)
      · cases hs
  | elapse | nack => exact h.turn rfl (le_rfl) (fun r hr x _ => .inr hr) rfl rfl
  | stage _ i hi hstage _ =>
    obtain ⟨hx, hstamp, -⟩ := stage_facts hstage
    exact h.step hi rfl (le_rfl) (fun x hx' => by rw [hx] at hx'; cases hx') rfl (fun e he => .inl he) (fun n s hn => .inl hn) hstamp
  | nothing => exact h
  | other _ _ hi | write _ _ _ _ hi =>
    exact h.step hi rfl (Nat.le_succ _) (fun x hx => ⟨(Option.some.inj hx).symm, Nat.lt_succ_self _⟩) rfl (fun e he => .inl he)
      (fun n s hn => .inl hn) nofun
  | commit i x rows moved hi =>
    refine h.step hi rfl (le_rfl) nofun rfl (fun e he => ?_) (fun n s hn => .inl hn) nofun
    rcases mem_append.1 he with he | he
    · exact .inl he
    · -- its own transaction has just ended, and nobody else has its xid
      have hx : x = e.txid := Option.some.inj (hw _ (mem_of_getElem? hi) e he)
      refine .inr (hx ▸ ⟨h.drawn x (mem_running.2 (.inl ⟨_, mem_of_getElem? hi, rfl⟩)), fun hrun => ?_⟩)
      rcases mem_running.1 hrun with ⟨u, hu, hux⟩ | ⟨r, hr, hrx⟩
      · rcases Conc.mem_set_cases hu with rfl | ⟨j, hji, hj⟩
        · cases hux
        · exact hji (h.excl j i u _ x hj hi hux rfl)
      · exact h.rot r hr x hrx _ (mem_of_getElem? hi) rfl
  | enter _ _ _ hi | ackEnd _ _ _ _ _ hi =>
    exact h.step hi rfl (le_rfl) nofun rfl (fun e he => .inl he) (fun n s hn => .inl hn) nofun
  | enrol i r p hi =>
    obtain ⟨hxid, hrot, -⟩ := enrol_rest w r
    exact h.step hi (enrol_set_txs ..) (Nat.le_of_eq hxid.symm) nofun hrot (fun e he => .inl ((enrol_log w r).1 ▸ he))
      (fun n s hn => .inl (enrol_snaps w r ▸ hn)) nofun
  | newTick i r startAt s m hi =>
    refine h.step hi rfl (le_rfl) nofun rfl (fun e he => .inl he) (fun n s' hn => ?_) nofun
    by_cases hnew : n = w.cur.tickSeq
    · simp only [World.newTick, hnew, update_self] at hn
      exact .inr hn
    · simp only [World.newTick, update_of_ne hnew] at hn
      exact .inl hn
  | settle i r startAt endAt own seqs hi =>
    obtain ⟨hxid, hrot, -⟩ := enrol_rest w r
    exact h.step hi (settle_txs ..) (Nat.le_of_eq hxid.symm) nofun hrot (fun e he => .inl ((enrol_log w r).1 ▸ he))
      (fun n s hn => .inl (enrol_snaps w r ▸ hn)) nofun
  | prune i ids hi => exact h.step hi rfl (le_rfl) nofun rfl (fun e he => .inl he) (fun n s hn => .inl hn) nofun
  | rotate began hr hshared =>
    refine h.turn rfl (le_rfl) (fun r hr x hx => ?_) rfl rfl
    cases hr
    cases hx
  | check began hr hcheck =>
    refine h.turn rfl (Nat.le_succ _) (fun r hr x hx => .inl ?_) rfl rfl
    cases hr
    cases hx
    exact ⟨rfl, Nat.lt_succ_self _⟩
  | giveUp | truncate => exact h.turn rfl (le_rfl) nofun rfl rfl

/-! ## Segments -/

structure Segs (w : World) : Prop where
  shared : w.rotation ≠ none → ∀ t ∈ w.txs, t.shared = false
  segment : ∀ t ∈ w.txs, ∀ g ∈ t.segment, g = w.seg.current
  rows : ∀ t ∈ w.txs, ∀ e ∈ t.rows, e.segment = w.seg.current ∧ t.xid = some e.txid
  unsealed : w.seg.sealedXid w.seg.current = none
  seals : ∀ e ∈ w.seg.events, ∀ x, w.seg.sealedXid e.segment = some x → e.txid < x
  logged : ∀ e ∈ w.seg.events, e ∈ w.hist.log
  kept : ∀ e ∈ w.hist.log, e ∈ w.hist.gone ∨ e ∈ w.seg.events
  drawn : ∀ r ∈ w.rotation, ∀ x, r.xid? = some x → ∀ e ∈ w.seg.events, e.txid < x

/-- Who does not hold the advisory lock appends nothing. -/
theorem of_not_shared (h : t.shared = false) : t.segment = none ∧ t.rows = [] := by
  cases t <;> first | exact ⟨rfl, rfl⟩ | cases h

theorem Segs.step (h : Segs w) (hi : w.txs[i]? = some t) (htxs : w'.txs = w.txs.set i t')
    (hrot : w'.rotation = w.rotation) (hcurrent : w'.seg.current = w.seg.current) (hsealed : w'.seg.sealedXid = w.seg.sealedXid)
    (hevents : w'.seg.events = w.seg.events) (hlog : w'.hist.log = w.hist.log) (hgone : w'.hist.gone = w.hist.gone)
    (hshared : t'.shared = true → t.shared = true ∨ w.rotation = none) (hsegment : ∀ g ∈ t'.segment, g = w.seg.current)
    (hrows : ∀ e ∈ t'.rows, e.segment = w.seg.current ∧ t'.xid = some e.txid) : Segs w' := by
  have hmem : ∀ u ∈ w'.txs, u = t' ∨ u ∈ w.txs := fun u hu => by
    rw [htxs] at hu
    exact (mem_or_eq_of_mem_set hu).symm
  refine ⟨fun hr u hu => ?_, fun u hu => ?_, fun u hu => ?_, ?_, ?_, ?_, ?_, ?_⟩
  · rw [hrot] at hr
    rcases hmem u hu with rfl | hu
    · cases hu' : u.shared with
      | false => rfl
      | true =>
        rcases hshared hu' with ht | hnone
        · rw [h.shared hr t (mem_of_getElem? hi)] at ht
          cases ht
        · exact absurd hnone hr
    · exact h.shared hr u hu
  · rw [hcurrent]
    rcases hmem u hu with rfl | hu
    · exact hsegment
    · exact h.segment u hu
  · rw [hcurrent]
    rcases hmem u hu with rfl | hu
    · exact hrows
    · exact h.rows u hu
  · rw [hsealed, hcurrent]
    exact h.unsealed
  · rw [hsealed, hevents]
    exact h.seals
  · rw [hevents, hlog]
    exact h.logged
  · rw [hevents, hlog, hgone]
    exact h.kept
  · rw [hrot, hevents]
    exact h.drawn

theorem segs_commit {rows : List Event} {moved : List Nat} (h : Segs w)
    (hi : w.txs[i]? = some (.written x rows moved)) : Segs (w.commit i rows moved) := by
  have hold := mem_of_getElem? hi
  have hmem : ∀ u ∈ (w.commit i rows moved).txs, u = .idle ∨ u ∈ w.txs := fun u hu => (mem_or_eq_of_mem_set hu).symm
  -- the lock of the append keeps rotations out
  have hrot : w.rotation = none := by
    by_contra hne
    exact Bool.noConfusion (h.shared hne _ hold)
  have happ : ∀ e ∈ w.seg.events ++ rows, e ∈ w.seg.events ∨ e ∈ rows := fun e => mem_append.1
  refine ⟨fun hr => absurd hrot hr, fun u hu => ?_, fun u hu => ?_, h.unsealed, fun e he y hy => ?_, fun e he => ?_, fun e he => ?_, ?_⟩
  · rcases hmem u hu with rfl | hu
    · nofun
    · exact h.segment u hu
  · rcases hmem u hu with rfl | hu
    · nofun
    · exact h.rows u hu
  · rcases happ e he with he | he
    · exact h.seals e he y hy
    · -- the current segment is not sealed
      have hnone : (w.commit i rows moved).seg.sealedXid e.segment = none := by
        rw [(h.rows _ hold e he).1]
        exact h.unsealed
      rw [hnone] at hy
      cases hy
  · rcases happ e he with he | he
    · exact mem_append_left _ (h.logged e he)
    · exact mem_append_right _ he
  · rcases mem_append.1 he with he | he
    · rcases h.kept e he with hgone | he
      · exact .inl hgone
      · exact .inr (mem_append_left _ he)
    · exact .inr (mem_append_right _ he)
  · intro r hr
    rw [show (w.commit i rows moved).rotation = w.rotation from rfl, hrot] at hr
    cases hr

theorem segs_truncate {target began : Nat} (h : Segs w) (hr : w.rotation = some (.checked target x began)) :
    Segs (w.truncate target x began) := by
  have hfree : ∀ t ∈ w.txs, t.segment = none ∧ t.rows = [] := fun t ht =>
    of_not_shared (h.shared (by rw [hr]; nofun) t ht)
  have hlt : ∀ e ∈ w.seg.events, e.txid < x := h.drawn _ hr x rfl
  refine ⟨fun hne => absurd rfl hne, fun t ht g hg => ?_, fun t ht e he => ?_, ?_,
    fun e he y hy => ?_, fun e he => ?_, fun e he => ?_, nofun⟩
  · rw [(hfree t ht).1] at hg
    cases hg
  · rw [(hfree t ht).2] at he
    cases he
  · simp [World.truncate]
  · obtain ⟨he, hseg⟩ := mem_filter.1 he
    have hseg : e.segment ≠ target := by simpa using hseg
    simp only [World.truncate, update_of_ne hseg] at hy
    by_cases hcur : e.segment = w.seg.current
    · rw [hcur, update_self] at hy
      cases hy
      exact hlt e he
    · rw [update_of_ne hcur] at hy
      exact h.seals e he y hy
  · exact h.logged e (mem_filter.1 he).1
  · rcases h.kept e he with hgone | he
    · exact .inl (mem_append_left _ hgone)
    · by_cases hseg : e.segment = target
      · exact .inl (mem_append_right _ (mem_filter.2 ⟨he, by simpa using hseg⟩))
      · exact .inr (mem_filter.2 ⟨he, by simpa using hseg⟩)

theorem segs_next (hx : Xids w) (h : Segs w) (hs : Step w a w') : Segs w' := by
  cases hs with
  | connect =>
    have hmem : ∀ u ∈ w.txs ++ [Tx.idle], u ∈ w.txs ∨ u = .idle := by simp
    refine { h with shared := fun hr u hu => ?_, segment := fun u hu => ?_, rows := fun u hu => ?_ }
    · rcases hmem u hu with hu | rfl
      · exact h.shared hr u hu
      · rfl
    · rcases hmem u hu with hu | rfl
      · exact h.segment u hu
      · nofun
    · rcases hmem u hu with hu | rfl
      · exact h.rows u hu
      · nofun
  | elapse | nack => exact { h with }
  | stage _ i hi hstage _ =>
    obtain ⟨-, -, hrows, hsegment, hshared⟩ := stage_facts hstage
    refine h.step hi rfl rfl rfl rfl rfl rfl rfl hshared (fun g hg => ?_) fun e he => ?_
    · rcases hsegment g hg with hcur | ht
      · exact hcur
      · exact h.segment _ (mem_of_getElem? hi) g ht
    · rw [hrows] at he
      cases he
  | nothing => exact h
  | other _ _ hi | enter _ _ _ hi | ackEnd _ _ _ _ _ hi | prune _ _ hi => exact h.step hi rfl rfl rfl rfl rfl rfl rfl nofun nofun nofun
  | write i segment rows moved hi ht =>
    have hseg : segment = w.seg.current := by
      rcases ht with ⟨ids, rfl, -⟩ | ⟨picked, rfl, -⟩
      · exact h.segment _ (mem_of_getElem? hi) segment rfl
      · exact h.segment _ (mem_of_getElem? hi) segment rfl
    refine h.step hi rfl rfl rfl rfl rfl rfl rfl (fun _ => .inl ?_) nofun fun e he => ?_
    · rcases ht with ⟨ids, rfl, -⟩ | ⟨picked, rfl, -⟩ <;> rfl
    · obtain ⟨k, hk, rfl⟩ := mem_mapIdx.1 he
      exact ⟨hseg, rfl⟩
  | commit i x rows moved hi => exact segs_commit h hi
  | enrol i r p hi =>
    obtain ⟨-, hrot, hseg⟩ := enrol_rest w r
    exact h.step hi (enrol_set_txs ..) hrot (congrArg Segments.current hseg)
      (congrArg Segments.sealedXid hseg) (congrArg Segments.events hseg)
      (enrol_log w r).1 (enrol_log w r).2 nofun nofun nofun
  | newTick i r startAt s m hi => exact h.step hi rfl rfl rfl rfl rfl rfl rfl (fun _ => .inl rfl) nofun nofun
  | settle i r startAt endAt own seqs hi =>
    obtain ⟨-, hrot, hseg⟩ := enrol_rest w r
    exact h.step hi (settle_txs ..) hrot (congrArg Segments.current hseg) (congrArg Segments.sealedXid hseg)
      (congrArg Segments.events hseg) (enrol_log w r).1 (enrol_log w r).2 nofun nofun nofun
  | rotate began hr hshared => exact { h with shared := fun _ => hshared, drawn := fun r hr x hx => by cases hr; cases hx }
  | check began hr hcheck =>
    refine { h with shared := fun _ => h.shared (by rw [hr]; nofun), drawn := fun r hr x hrx e he => ?_ }
    cases hr
    cases hrx
    exact (hx.log e (h.logged e he)).1
  | giveUp => exact { h with shared := fun hr => absurd rfl hr, drawn := nofun }
  | truncate target x began hr => exact segs_truncate h hr

/-! ## Ticks in the order of their snapshots -/

def Cursors.SeesAt (cur : Cursors) (n x : Nat) : Prop := ∃ s, cur.snaps n = some s ∧ s.sees x

/-- A later tick sees more; and a snapshot taken for a tick sees more than the ticks made before it
was taken. -/
structure Ordered (w : World) : Prop where
  mono : ∀ m n s s', m ≤ n → w.cur.snaps m = some s → w.cur.snaps n = some s' → ∀ x, s.sees x → s'.sees x
  stamp : ∀ r startAt s m, Tx.receive r (.stamped startAt s m) ∈ w.txs → m ≤ w.cur.tickSeq ∧
    ∀ n s', n < m → w.cur.snaps n = some s' → ∀ x, s'.sees x → s.sees x

/-- No tick has been made between the snapshot of this one and its id. -/
def Tx.InOrder (cur : Cursors) : Tx → Prop
  | .receive _ (.stamped _ _ m) => m = cur.tickSeq
  | _ => True

theorem Ordered.seesAt (h : Ordered w) {n : Nat} (hle : m ≤ n) (hknown : w.cur.Known n) (hm : w.cur.SeesAt m x) :
    w.cur.SeesAt n x := by
  obtain ⟨s, hs, hsx⟩ := hm
  obtain ⟨s', hs'⟩ := Option.isSome_iff_exists.1 hknown
  exact ⟨s', hs', h.mono m n s s' hle hs hs' x hsx⟩

theorem Ordered.step (h : Ordered w) (hsnaps : w'.cur.snaps = w.cur.snaps) (hseq : w'.cur.tickSeq = w.cur.tickSeq)
    (hstamp : ∀ r startAt s m, Tx.receive r (.stamped startAt s m) ∈ w'.txs →
      Tx.receive r (.stamped startAt s m) ∈ w.txs) : Ordered w' := by
  refine ⟨?_, ?_⟩
  · rw [hsnaps]
    exact h.mono
  · intro r startAt s m hmem
    rw [hsnaps, hseq]
    exact h.stamp r startAt s m (hstamp r startAt s m hmem)

theorem ordered_newTick {r : Receive} {startAt : Nat} {s : Snapshot} (hw : Held w) (h : Ordered w)
    (hi : w.txs[i]? = some (.receive r (.stamped startAt s m))) (hm : m = w.cur.tickSeq) : Ordered (w.newTick i r startAt s) := by
  have hbelow : ∀ n s', w.cur.snaps n = some s' → n < w.cur.tickSeq := fun n s' hn => hw.cur.below n (by simp [Cursors.Known, hn])
  have hsnaps : ∀ n s', (w.newTick i r startAt s).cur.snaps n = some s' →
      (n = w.cur.tickSeq ∧ s' = s) ∨ (n < w.cur.tickSeq ∧ w.cur.snaps n = some s') := by
    intro n s' hn
    by_cases hnew : n = w.cur.tickSeq
    · simp only [World.newTick, hnew, update_self] at hn
      exact .inl ⟨hnew, (Option.some.inj hn).symm⟩
    · simp only [World.newTick, update_of_ne hnew] at hn
      exact .inr ⟨hbelow n s' hn, hn⟩
  have hstamp := (h.stamp r startAt s m (mem_of_getElem? hi)).2
  refine ⟨fun k n sk sn hle hk hn x hx => ?_, fun r' a s' m' hmem => ?_⟩
  · rcases hsnaps k sk hk with ⟨rfl, rfl⟩ | ⟨hlt, hsk⟩ <;> rcases hsnaps n sn hn with ⟨rfl, rfl⟩ | ⟨hlt', hsn⟩
    · exact hx
    · omega
    · exact hstamp k sk (hm ▸ hlt) hsk x hx
    · exact h.mono k n sk sn hle hsk hsn x hx
  · rcases mem_or_eq_of_mem_set hmem with hmem | hnew
    · obtain ⟨hle, hsees⟩ := h.stamp r' a s' m' hmem
      refine ⟨Nat.le_succ_of_le hle, fun n sn hlt hn => ?_⟩
      rcases hsnaps n sn hn with ⟨rfl, -⟩ | ⟨-, hn⟩
      · omega
      · exact hsees n sn hlt hn
    · cases hnew

theorem ordered_next (hw : Held w) (hx : Xids w) (h : Ordered w) (ho : ∀ t ∈ w.call a, t.InOrder w.cur)
    (hs : Step w a w') : Ordered w' := by
  have hidle : ∀ (i : Nat) (t : Tx), (∀ r startAt s m, t ≠ .receive r (.stamped startAt s m)) →
      ∀ r startAt s m, Tx.receive r (.stamped startAt s m) ∈ w.txs.set i t → Tx.receive r (.stamped startAt s m) ∈ w.txs := by
    intro i t ht r startAt s m hmem
    rcases mem_or_eq_of_mem_set hmem with hmem | heq
    · exact hmem
    · exact absurd heq.symm (ht r startAt s m)
  cases hs with
  | connect =>
    refine h.step rfl rfl fun r startAt s m hmem => ?_
    rcases mem_append.1 hmem with hmem | hmem
    · exact hmem
    · cases mem_singleton.1 hmem
  | elapse | nack | rotate | check | giveUp | truncate => exact h.step rfl rfl fun _ _ _ _ hmem => hmem
  | stage _ i hi hstage _ =>
    cases hstage with
    | stamped r startAt =>
      refine ⟨h.mono, fun r' a s m hmem => ?_⟩
      rcases mem_or_eq_of_mem_set hmem with hmem | heq
      · exact h.stamp r' a s m hmem
      · -- the current snapshot sees whatever an earlier one has seen
        cases heq
        exact ⟨le_rfl, fun n s' _ hn x hx' => hx.snaps n s' hn x hx'⟩
    | _ => exact h.step rfl rfl (hidle i _ fun _ _ _ _ heq => by cases heq)
  | nothing => exact h
  | other _ i | write i | commit i | enter i | ackEnd i | prune i => exact h.step rfl rfl (hidle i _ nofun)
  | enrol i r p hi =>
    refine h.step (enrol_snaps w r) ?_ ?_
    · simp only [World.set, World.enrol]
      split <;> rfl
    · rw [World.set, enrol_txs]
      exact hidle i _ nofun
  | newTick i r startAt s m hi => exact ordered_newTick hw h hi (ho _ hi)
  | settle i r startAt endAt own seqs hi =>
    refine h.step (enrol_snaps w r) ?_ ?_
    · simp only [World.settle, World.enrol]
      split <;> rfl
    · rw [settle_txs]
      exact hidle i _ nofun

variable (maxRetries retention : Nat)

theorem xids_init : Xids (World.init maxRetries retention) := by
  refine ⟨nofun, .nil _, nofun, nofun, fun n s hn x hsx => ?_, nofun⟩
  by_cases hone : n = 1
  · rw [hone] at hn
    cases hn
    exact hsx
  · simp [World.init, hone] at hn

theorem segs_init : Segs (World.init maxRetries retention) :=
  ⟨fun hr => absurd rfl hr, nofun, nofun, rfl, nofun, nofun, nofun, nofun⟩

theorem ordered_init : Ordered (World.init maxRetries retention) := by
  have hone : ∀ n s, (World.init maxRetries retention).cur.snaps n = some s → n = 1 := by
    intro n s hn
    by_contra hne
    simp [World.init, hne] at hn
  refine ⟨fun m n s s' _ hm hn x hx => ?_, fun _ _ _ _ h => by cases h⟩
  rw [hone m s hm] at hm
  rw [hone n s' hn, hm] at hn
  exact Option.some.inj hn ▸ hx

end Pgvs3.Stream
