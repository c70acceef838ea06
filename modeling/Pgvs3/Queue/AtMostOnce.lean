import Pgvs3.Queue.NoLoss
/-!
# No event is in two batches of a consumer

A receive starts where the last range of the consumer ended. What the consumer has been given is
seen by the tick where it is now, so it is not handed out again, as long as ticks see more the later
they are (`Ordered`). But a tick takes its snapshot before its id: of two that are made at once the
later one may see less (`late_tick_repeats_event`).
-/

namespace Pgvs3.Stream

open List Function Conc Cursors

/-- The batches that were made for a consumer have no event in common, and none has an event twice.
-/
def AtMostOnce (w : World) : Prop := ∀ c, (w.hist.got c).Nodup

/-- No other tick is made between the snapshot of a tick and its id. -/
def InOrder (w : World) (a : Act) : Prop := ∀ t ∈ w.call a, t.InOrder w.cur

instance (cur : Cursors) (t : Tx) : Decidable (t.InOrder cur) :=
  decidable_of_iff ((match t with | .receive _ (.stamped _ _ m) => decide (m = cur.tickSeq) | _ => true : Bool) = true)
    (by unfold Tx.InOrder; split <;> simp)

instance (w : World) (a : Act) : Decidable (InOrder w a) := inferInstanceAs (Decidable (∀ t ∈ w.call a, t.InOrder w.cur))

/-! ## Sequence numbers -/

/-- No sequence number is given to two events, committed or not. -/
structure Seqs (w : World) : Prop where
  log : ∀ e ∈ w.hist.log, e.seq < w.seg.eventSeq
  inj : ∀ e ∈ w.hist.log, ∀ e' ∈ w.hist.log, e.seq = e'.seq → e = e'
  events : (w.seg.events.map (·.seq)).Nodup
  rows : ∀ t ∈ w.txs, ∀ e ∈ t.rows, e.seq < w.seg.eventSeq ∧ ∀ e' ∈ w.hist.log, e'.seq ≠ e.seq
  distinct : ∀ t ∈ w.txs, (t.rows.map (·.seq)).Nodup
  apart : ∀ (i j : Nat) (t t' : Tx), w.txs[i]? = some t → w.txs[j]? = some t' → ∀ e ∈ t.rows, ∀ e' ∈ t'.rows, e.seq = e'.seq → i = j

variable {w w' : World} {i : Nat} {moved : List Nat} {a : Act} {r : Receive} {own : Option Tick}

theorem Seqs.step (h : Seqs w) (hget : ∀ (j : Nat) (t : Tx), w'.txs[j]? = some t → t.rows = [] ∨ w.txs[j]? = some t)
    (hlog : w'.hist.log = w.hist.log) (hseq : w'.seg.eventSeq = w.seg.eventSeq) (hevents : w'.seg.events.Sublist w.seg.events) :
    Seqs w' := by
  have hmem : ∀ t ∈ w'.txs, t.rows = [] ∨ t ∈ w.txs := by
    intro t ht
    obtain ⟨j, hj⟩ := mem_iff_getElem?.1 ht
    exact (hget j t hj).imp_right mem_of_getElem?
  refine ⟨?_, ?_, h.events.sublist (hevents.map _), fun t ht e he => ?_, fun t ht => ?_, fun j k t u hj hk e he e' he' heq => ?_⟩
  · rw [hlog, hseq]
    exact h.log
  · rw [hlog]
    exact h.inj
  · rw [hlog, hseq]
    rcases hmem t ht with hnil | ht
    · rw [hnil] at he
      cases he
    · exact h.rows t ht e he
  · rcases hmem t ht with hnil | ht
    · rw [hnil]
      exact nodup_nil
    · exact h.distinct t ht
  · rcases hget j t hj with hnil | hj
    · rw [hnil] at he
      cases he
    · rcases hget k u hk with hnil | hk
      · rw [hnil] at he'
        cases he'
      · exact h.apart j k t u hj hk e he e' he' heq

theorem Seqs.set (h : Seqs w) {t' : Tx} (htxs : w'.txs = w.txs.set i t') (hrows : t'.rows = [])
    (hlog : w'.hist.log = w.hist.log) (hseg : w'.seg = w.seg) : Seqs w' := by
  refine h.step (fun j t hj => ?_) hlog (by rw [hseg]) (by rw [hseg])
  rw [htxs] at hj
  rcases getElem?_set_cases hj with ⟨-, rfl⟩ | ⟨-, hj⟩
  · exact .inl hrows
  · exact .inr hj

theorem seqs_write {segment : Nat} {rows : List (Nat × Nat)} (h : Seqs w) : Seqs (w.write i segment rows moved) := by
  -- the new events have the next numbers
  have hnew : ∀ e ∈ Tx.rows (.written w.xid (rows.mapIdx fun k r => (⟨w.seg.eventSeq + k, segment, w.xid, r.1, r.2⟩ : Event)) moved),
      w.seg.eventSeq ≤ e.seq ∧ e.seq < w.seg.eventSeq + rows.length := by
    intro e he
    obtain ⟨k, hk, rfl⟩ := mem_mapIdx.1 he
    exact ⟨Nat.le_add_right _ _, Nat.add_lt_add_left hk _⟩
  refine ⟨fun e he => Nat.lt_of_lt_of_le (h.log e he) (Nat.le_add_right _ _), h.inj, h.events, fun t ht e he => ?_, fun t ht => ?_,
    fun j k t u hj hk e he e' he' heq => ?_⟩
  · rcases mem_or_eq_of_mem_set ht with ht | rfl
    · obtain ⟨hlt, hlog⟩ := h.rows t ht e he
      exact ⟨Nat.lt_of_lt_of_le hlt (Nat.le_add_right _ _), hlog⟩
    · obtain ⟨hge, hlt⟩ := hnew e he
      exact ⟨hlt, fun e' he' heq => absurd (h.log e' he') (by omega)⟩
  · rcases mem_or_eq_of_mem_set ht with ht | rfl
    · exact h.distinct t ht
    · show ((rows.mapIdx fun k r => (⟨w.seg.eventSeq + k, segment, w.xid, r.1, r.2⟩ : Event)).map (·.seq)).Nodup
      have hrange : (rows.mapIdx fun k r => (⟨w.seg.eventSeq + k, segment, w.xid, r.1, r.2⟩ : Event)).map (·.seq) =
          List.range' w.seg.eventSeq rows.length := ext_getElem (by simp) (by simp)
      rw [hrange]
      exact nodup_range'
  · rcases getElem?_set_cases hj with ⟨rfl, rfl⟩ | ⟨hji, hj'⟩
    · rcases getElem?_set_cases hk with ⟨rfl, -⟩ | ⟨-, hk'⟩
      · rfl
      · have hlt := (h.rows u (mem_of_getElem? hk') e' he').1
        have hge := (hnew e he).1
        omega
    · rcases getElem?_set_cases hk with ⟨rfl, rfl⟩ | ⟨-, hk'⟩
      · have hlt := (h.rows t (mem_of_getElem? hj') e he).1
        have hge := (hnew e' he').1
        omega
      · exact h.apart j k t u hj' hk' e he e' he' heq

theorem seqs_commit {x : Nat} {rows : List Event} (hg : Segs w) (h : Seqs w)
    (hi : w.txs[i]? = some (.written x rows moved)) : Seqs (w.commit i rows moved) := by
  have hold := mem_of_getElem? hi
  have hset : Seqs (w.set i .idle) := h.set rfl rfl rfl rfl
  have hinj : ∀ e ∈ rows, ∀ e' ∈ rows, e.seq = e'.seq → e = e' :=
    fun e he e' he' heq => inj_on_of_nodup_map (h.distinct _ hold) he he' heq
  refine ⟨fun e he => ?_, fun e he e' he' heq => ?_, ?_, fun t ht e he => ?_, hset.distinct, hset.apart⟩
  · rcases mem_append.1 he with he | he
    · exact h.log e he
    · exact (h.rows _ hold e he).1
  · rcases mem_append.1 he with he | he
    · rcases mem_append.1 he' with he' | he'
      · exact h.inj e he e' he' heq
      · exact absurd heq ((h.rows _ hold e' he').2 e he)
    · rcases mem_append.1 he' with he' | he'
      · exact absurd heq.symm ((h.rows _ hold e he).2 e' he')
      · exact hinj e he e' he' heq
  · show ((w.seg.events ++ rows).map (·.seq)).Nodup
    rw [map_append]
    refine List.Nodup.append h.events (h.distinct _ hold) fun q hq hq' => ?_
    obtain ⟨e, he, rfl⟩ := mem_map.1 hq
    obtain ⟨e', he', heq⟩ := mem_map.1 hq'
    exact (h.rows _ hold e' he').2 e (hg.logged e he) heq.symm
  · rcases mem_set_cases ht with rfl | ⟨j, hji, hj⟩
    · cases he
    · obtain ⟨hlt, hlog⟩ := h.rows t (mem_of_getElem? hj) e he
      refine ⟨hlt, fun e' he' heq => ?_⟩
      rcases mem_append.1 he' with he' | he'
      · exact hlog e' he' heq
      · exact hji (h.apart i j _ t hi hj e' he' e he heq).symm

theorem seqs_next (hg : Segs w) (h : Seqs w) (hs : Step w a w') : Seqs w' := by
  cases hs with
  | connect =>
    refine h.step (fun j t hj => ?_) rfl rfl (List.Sublist.refl _)
    rcases getElem?_push_cases hj with hj | rfl
    · exact .inr hj
    · exact .inl rfl
  | stage _ i hi hstage _ => exact h.set rfl (stage_facts hstage).2.2.1 rfl rfl
  | nothing => exact h
  | other | enter | newTick | ackEnd | prune => exact h.set rfl rfl rfl rfl
  | write i segment rows moved hi ht => exact seqs_write h
  | commit i x rows moved hi => exact seqs_commit hg h hi
  | enrol i r p hi =>
    exact h.set (enrol_set_txs ..) rfl (enrol_log w r).1 (enrol_rest w r).2.2
  | settle i r startAt endAt own seqs hi => exact h.set (settle_txs ..) rfl (enrol_log w r).1 (enrol_rest w r).2.2
  | truncate target x began hr => exact h.step (fun _ _ => .inr) rfl rfl filter_sublist
  | elapse | nack | rotate | check | giveUp => exact h.step (fun _ _ => .inr) rfl rfl (List.Sublist.refl _)

/-! ## What has been given -/

/-- The number belongs to an event that the tick sees. -/
def World.Seen (w : World) (tick q : Nat) : Prop := ∃ e ∈ w.hist.log, e.seq = q ∧ w.cur.SeesAt tick e.txid

/-- The number belongs to an event between the two ticks. -/
def World.Between (w : World) (startAt endAt q : Nat) : Prop :=
  ∃ e ∈ w.hist.log, e.seq = q ∧ w.cur.SeesAt endAt e.txid ∧ ¬ w.cur.SeesAt startAt e.txid

structure Once (w : World) : Prop where
  nodup : AtMostOnce w
  /-- Who has no subscription has been given nothing. -/
  stranger : ∀ c, (∀ s ∈ w.cur.subs, s.consumer ≠ c) → w.hist.got c = []
  seen : ∀ s ∈ w.cur.subs, ∀ q ∈ w.hist.got s.consumer, w.Seen s.nextTick q
  found : ∀ r startAt endAt own seqs, Tx.receive r (.collected startAt endAt own seqs) ∈ w.txs →
    seqs.Nodup ∧ ∀ q ∈ seqs, w.Between startAt endAt q

/-- A step that gives nobody anything, moves no cursor back in what it sees, and takes no call to
where its events are collected. -/
theorem Once.same (h : Once w) (hgot : w'.hist.got = w.hist.got) (hlog : ∀ e ∈ w.hist.log, e ∈ w'.hist.log)
    (hsnaps : w'.cur.snaps = w.cur.snaps) (hsubs : ∀ y ∈ w'.cur.subs, ∃ x ∈ w.cur.subs, x.consumer = y.consumer ∧ x.nextTick = y.nextTick)
    (hkeep : ∀ x ∈ w.cur.subs, ∃ y ∈ w'.cur.subs, y.consumer = x.consumer)
    (htxs : ∀ r startAt endAt own seqs, Tx.receive r (.collected startAt endAt own seqs) ∈ w'.txs →
      Tx.receive r (.collected startAt endAt own seqs) ∈ w.txs) : Once w' := by
  have hsees : ∀ n x, w'.cur.SeesAt n x ↔ w.cur.SeesAt n x := fun n x => by rw [SeesAt, hsnaps]; rfl
  refine ⟨fun c => hgot ▸ h.nodup c, fun c hc => ?_, fun y hy q hq => ?_, fun r startAt endAt own seqs hmem => ?_⟩
  · rw [hgot]
    refine h.stranger c fun x hx heq => ?_
    obtain ⟨y, hy, hyc⟩ := hkeep x hx
    exact hc y hy (hyc.trans heq)
  · obtain ⟨x, hx, hxc, hnext⟩ := hsubs y hy
    rw [hgot, ← hxc] at hq
    obtain ⟨e, he, heq, hsee⟩ := h.seen x hx q hq
    exact ⟨e, hlog e he, heq, (hsees _ _).2 (hnext ▸ hsee)⟩
  · obtain ⟨hnd, hall⟩ := h.found r startAt endAt own seqs (htxs r startAt endAt own seqs hmem)
    refine ⟨hnd, fun q hq => ?_⟩
    obtain ⟨e, he, heq, hend, hstart⟩ := hall q hq
    exact ⟨e, hlog e he, heq, (hsees _ _).2 hend, fun hs => hstart ((hsees _ _).1 hs)⟩

theorem Once.calm (h : Once w) (hhist : w'.hist = w.hist) (hsnaps : w'.cur.snaps = w.cur.snaps) (hsubs : w'.cur.subs = w.cur.subs)
    (htxs : ∀ r startAt endAt own seqs, Tx.receive r (.collected startAt endAt own seqs) ∈ w'.txs →
      Tx.receive r (.collected startAt endAt own seqs) ∈ w.txs) : Once w' :=
  h.same (by rw [hhist]) (by rw [hhist]; exact fun _ he => he) hsnaps (fun y hy => ⟨y, hsubs ▸ hy, rfl, rfl⟩)
    (fun x hx => ⟨x, hsubs.symm ▸ hx, rfl⟩) htxs

theorem once_enter {c tick : Nat} (h : Once w) (hnew : w.cur.sub? c = none) : Once (w.enter c tick) := by
  have hgot := h.stranger c (sub?_eq_none.1 hnew)
  refine ⟨h.nodup, fun d hd => h.stranger d fun s hs => hd s (mem_append_left _ hs), forall_push h.seen fun q hq => ?_, h.found⟩
  rw [show (w.enter c tick).hist.got c = [] from hgot] at hq
  cases hq

theorem once_enrol {p : Place} (h : Once w) (hok : r.Ok w.cur p) : Once (w.enrol r) := by
  unfold World.enrol
  split
  · next hf => exact once_enter h (hok.new hf)
  · exact h

theorem once_newTick (i : Nat) (r : Receive) (startAt : Nat) (s : Snapshot) (hw : Held w) (h : Once w) :
    Once (w.newTick i r startAt s) := by
  have hk : w.cur.Keeps (w.newTick i r startAt s).cur := (hw.cur.newTick s).2
  refine ⟨h.nodup, h.stranger, fun x hx q hq => ?_, fun r' a z own seqs hmem => ?_⟩
  · obtain ⟨e, he, heq, hsee⟩ := h.seen x hx q hq
    exact ⟨e, he, heq, (hk.seesAt (hw.cur.known x hx).2).2 hsee⟩
  · have hmem := mem_of_mem_set hmem nofun
    obtain ⟨hstart, hend⟩ := hw.collected_known hmem
    obtain ⟨hnd, hall⟩ := h.found r' a z own seqs hmem
    refine ⟨hnd, fun q hq => ?_⟩
    obtain ⟨e, he, heq, hsee, hnot⟩ := hall q hq
    exact ⟨e, he, heq, (hk.seesAt hend).2 hsee, fun hs => hnot ((hk.seesAt hstart).1 hs)⟩

theorem once_settle {startAt endAt : Nat} {seqs : List Nat} (hw : Held w)
    (hq : Seqs w) (ho : Ordered w) (h : Once w) (hi : w.txs[i]? = some (.receive r (.collected startAt endAt own seqs))) :
    Once (w.settle i r startAt endAt own seqs) := by
  have hold := mem_of_getElem? hi
  have hok : r.Ok w.cur (.collected startAt endAt own seqs) := hw.txs _ hold
  have hv := once_enrol h hok
  obtain ⟨hcur, -, -, s, hs, hc, -, rfl, hlt, hknown, -⟩ := enrol_spec hw hok
  obtain ⟨hnd, hfound⟩ := h.found r s.nextTick endAt own seqs hold
  have hsnaps := enrol_snaps w r
  have hlog := (enrol_log w r).1
  have hsees : ∀ n x, (w.enrol r).cur.SeesAt n x ↔ w.cur.SeesAt n x := fun n x => by rw [SeesAt, hsnaps]; rfl
  have hgot : (w.settle i r s.nextTick endAt own seqs).hist.got =
      update (w.enrol r).hist.got r.consumer ((w.enrol r).hist.got r.consumer ++ seqs) := rfl
  refine ⟨fun c => ?_, fun c hnone => ?_, fun y hy q hqy => ?_, fun r' a z own' seqs' hmem => ?_⟩
  · rw [hgot]
    by_cases hcr : c = r.consumer
    · rw [hcr, update_self]
      refine List.Nodup.append (hv.nodup _) hnd fun q hold' hnew => ?_
      -- the tick where the range starts sees what was given before
      obtain ⟨e, he, heq, hsee⟩ := hv.seen s hs q (hc ▸ hold')
      obtain ⟨e', he', heq', -, hnot⟩ := hfound q hnew
      cases hq.inj e (hlog ▸ he) e' he' (heq.trans heq'.symm)
      exact hnot ((hsees _ _).1 hsee)
    · rw [update_of_ne hcr]
      exact hv.nodup c
  · have hother : ∀ x ∈ (w.enrol r).cur.subs, x.consumer ≠ c := by
      intro x hx hxc
      exact hnone _ (mem_map_of_mem hx) ((advance_consumer w r endAt seqs x).trans hxc)
    rw [hgot, update_of_ne (fun hcr => hother s hs (hc.trans hcr.symm))]
    exact hv.stranger c hother
  · obtain ⟨x, hx, rfl⟩ := mem_map.1 hy
    rw [hgot, advance_consumer] at hqy
    by_cases hxc : x.consumer = r.consumer
    · cases hcur.inj x hx s hs (hxc.trans hc.symm)
      rw [hxc, update_self] at hqy
      rw [(advance_self w endAt seqs hc).1]
      rcases mem_append.1 hqy with hqy | hqy
      · obtain ⟨e, he, heq, hsee⟩ := hv.seen s hs q (hc ▸ hqy)
        exact ⟨e, he, heq, (hsees _ _).2 (ho.seesAt (Nat.le_of_lt hlt) hknown ((hsees _ _).1 hsee))⟩
      · obtain ⟨e, he, heq, hsee, -⟩ := hfound q hqy
        exact ⟨e, hlog.symm ▸ he, heq, (hsees _ _).2 hsee⟩
    · rw [update_of_ne hxc] at hqy
      rw [advance_other hxc]
      exact hv.seen x hx q hqy
  · rw [settle_txs] at hmem
    have hmem := mem_of_mem_set hmem (by simp)
    obtain ⟨hnd', hall⟩ := h.found r' a z own' seqs' hmem
    refine ⟨hnd', fun q hq' => ?_⟩
    obtain ⟨e, he, heq, hsee, hnot⟩ := hall q hq'
    exact ⟨e, hlog.symm ▸ he, heq, (hsees _ _).2 hsee, fun hs => hnot ((hsees _ _).1 hs)⟩

theorem once_ackEnd {b c base : Nat} {chain : List Batch} (hw : Held w) (h : Once w)
    (hi : w.txs[i]? = some (.chained b c base chain)) : Once (w.ackEnd i b c chain) := by
  refine h.same rfl (fun _ he => he) rfl (ackEnd_next hw hi) (fun x hx => ?_) fun r startAt endAt own seqs hmem => ?_
  · by_cases hne : chain = []
    · exact ⟨x, by simpa [World.ackEnd, hne] using hx, rfl⟩
    · simp only [World.ackEnd, if_neg hne]
      refine ⟨_, mem_map_of_mem hx, ?_⟩
      split <;> rfl
  · exact mem_of_mem_set hmem (by simp)

theorem collect_between {startAt endAt : Nat} (hw : Held w) (hg : Segs w) (hq : Seqs w)
    (hown : ∀ t ∈ own, t.id = endAt ∧ w.cur.snaps endAt = some t.snapshot) :
    (w.collect startAt endAt own).Nodup ∧ ∀ q ∈ w.collect startAt endAt own, w.Between startAt endAt q := by
  have hsnap : ∀ t ∈ w.cur.ticks ++ own.toList, w.cur.snaps t.id = some t.snapshot := by
    intro t ht
    rcases mem_append.1 ht with ht | ht
    · exact hw.cur.tick t ht
    · obtain ⟨hid, hs⟩ := hown t (Option.mem_toList.1 ht)
      exact hid ▸ hs
  refine ⟨hq.events.sublist (filter_sublist.map _), fun q hmem => ?_⟩
  obtain ⟨e, hfilter, rfl⟩ := mem_map.1 hmem
  obtain ⟨he, htest⟩ := mem_filter.1 hfilter
  simp only [decide_eq_true_eq] at htest
  obtain ⟨lt, hltmem, rfl, ct, hct, rfl, hdiff⟩ := htest
  obtain ⟨hsee, hnot⟩ := Snapshot.diff_iff.1 hdiff
  refine ⟨e, hg.logged e he, rfl, ⟨ct.snapshot, hsnap ct hct, hsee⟩, ?_⟩
  rintro ⟨s, hs, hsees⟩
  cases (hsnap lt hltmem).symm.trans hs
  exact hnot hsees

theorem once_next (hw : Held w) (hg : Segs w) (hq : Seqs w) (ho : Ordered w) (h : Once w) (hs : Step w a w') :
    Once w' := by
  cases hs with
  | connect =>
    exact h.calm rfl rfl rfl fun _ _ _ _ _ hmem => mem_of_mem_push hmem nofun
  | stage _ i hi hstage hrun =>
    cases hstage with
    | collected r startAt endAt own =>
      have hok : r.Ok w.cur (.ranged startAt endAt own) := hw.txs _ (mem_of_getElem? hi)
      obtain ⟨_, -, -, -, -, -, hown⟩ := hok.row
      refine { h with found := fun r' a z own' seqs hmem => ?_ }
      rcases mem_or_eq_of_mem_set hmem with hmem | heq
      · exact h.found r' a z own' seqs hmem
      · cases heq
        exact collect_between hw hg hq hown
    | _ => exact h.calm rfl rfl rfl fun _ _ _ _ _ hmem => mem_of_mem_set hmem nofun
  | nothing => exact h
  | other | write | prune => exact h.calm rfl rfl rfl fun _ _ _ _ _ hmem => mem_of_mem_set hmem nofun
  | commit i x rows moved hi =>
    exact h.same rfl (fun _ he => mem_append_left _ he) rfl (fun y hy => ⟨y, hy, rfl, rfl⟩)
      (fun x hx => ⟨x, hx, rfl⟩) fun _ _ _ _ _ hmem => mem_of_mem_set hmem nofun
  | enter i c target hi hsub hfree => exact (once_enter h hsub).calm rfl rfl rfl fun _ _ _ _ _ hmem => mem_of_mem_set hmem nofun
  | enrol i r p hi =>
    refine (once_enrol h (hw.txs _ (mem_of_getElem? hi))).calm rfl rfl rfl ?_
    exact fun _ _ _ _ _ hmem => mem_of_mem_set hmem nofun
  | newTick i r startAt s m hi => exact once_newTick i r startAt s hw h
  | settle i r startAt endAt own seqs hi => exact once_settle hw hq ho h hi
  | ackEnd i b c base chain hi hfree => exact once_ackEnd hw h hi
  | truncate target x began hr =>
    exact h.same rfl (fun _ he => he) rfl (fun y hy => ⟨y, hy, rfl, rfl⟩) (fun x hx => ⟨x, hx, rfl⟩) fun _ _ _ _ _ hmem => hmem
  | elapse | nack | rotate | check | giveUp => exact h.calm rfl rfl rfl fun _ _ _ _ _ hmem => hmem

structure OnceInv (w : World) : Prop where
  held : Held w
  xids : Xids w
  segs : Segs w
  ordered : Ordered w
  seqs : Seqs w
  once : Once w

theorem onceInv_next (h : OnceInv w) (hok : InOrder w a) (hn : next w a = some w') : OnceInv w' := by
  have hs := step_of_next hn
  exact ⟨held_next h.held hs, xids_next h.xids (fun t ht e he => (h.segs.rows t ht e he).2) hs, segs_next h.xids h.segs hs,
    ordered_next h.held h.xids h.ordered hok hs, seqs_next h.segs h.seqs hs, once_next h.held h.segs h.seqs h.ordered h.once hs⟩

theorem onceInv_init (maxRetries retention : Nat) : OnceInv (World.init maxRetries retention) :=
  ⟨held_init _ _, xids_init _ _, segs_init _ _, ordered_init _ _, ⟨nofun, nofun, nodup_nil, nofun, nofun, fun _ _ _ _ h => nomatch h⟩,
    fun _ => nodup_nil, fun _ _ => rfl, nofun, nofun⟩

/-- In every run in which each tick gets its id before another one is made, no event is in two
batches of one consumer. -/
theorem at_most_once (maxRetries retention : Nat) (acts : List Act) (w : World)
    (hok : machine.Allowed InOrder (World.init maxRetries retention) acts)
    (hrun : machine.run (World.init maxRetries retention) acts = some w) : AtMostOnce w := by
  have hstep : ∀ v a v', OnceInv v → InOrder v a → machine.next v a = some v' → OnceInv v' := fun _ _ _ hv ho hn => onceInv_next hv ho hn
  exact (Machine.invariant hstep (onceInv_init maxRetries retention) hok hrun).once.nodup

def twoBatches : List Act :=
  [.connect] ++ call 0 2 (.subscribe 1 none) ++ call 0 2 (.append [1]) ++ call 0 8 (.receive 1 1 10) ++ call 0 2 (.append [2]) ++
    call 0 8 (.receive 1 2 10)

theorem two_batches_apart : ∃ w, machine.run (World.init 5 10) twoBatches = some w ∧ w.hist.got 1 = [1, 2] ∧ AtMostOnce w := by
  have hrun : ((machine.runIf InOrder (World.init 5 10) twoBatches).map fun w => w.hist.got 1) = some [1, 2] := by decide +kernel
  obtain ⟨w, hw, heq⟩ := Option.map_eq_some_iff.1 hrun
  obtain ⟨hok, hw⟩ := Machine.runIf_spec hw
  exact ⟨w, hw, heq, at_most_once 5 10 _ w hok hw⟩

/-- Consumer 1 takes the snapshot of its tick, then event 2 comes. Consumer 2 makes tick 2, which
sees both, and acks them. Consumer 1 makes tick 3, which sees event 1 only. Consumer 2 goes on to
tick 3 and tick 4. -/
def lateTick : List Act :=
  [.connect, .connect] ++ call 0 2 (.subscribe 1 none) ++ call 0 2 (.subscribe 2 none) ++ call 0 2 (.append [1]) ++
    call 0 5 (.receive 1 0 10) ++ call 1 2 (.append [2]) ++ call 1 8 (.receive 2 0 10) ++ call 1 2 (.ack 1) ++
    List.replicate 3 (.run 0) ++ call 1 5 (.receive 2 0 10) ++ call 1 8 (.receive 2 0 10)

/-- Consumer 2 gets event 2 in both of its batches. -/
theorem late_tick_repeats_event : ¬ ∀ (maxRetries retention : Nat) (acts : List Act) (w : World),
      machine.run (World.init maxRetries retention) acts = some w → AtMostOnce w := by
  intro hclaim
  have hrun : ((machine.run (World.init 5 10) lateTick).map fun w => w.hist.got 2) = some [1, 2, 2] := by decide +kernel
  obtain ⟨w, hw, heq⟩ := Option.map_eq_some_iff.1 hrun
  have hnd := hclaim 5 10 _ w hw 2
  rw [heq] at hnd
  revert hnd
  decide

end Pgvs3.Stream
