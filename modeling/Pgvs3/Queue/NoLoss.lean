import Pgvs3.Queue.Rotation
/-!
# Every event reaches every consumer

Whatever a consumer's cursor sees, and the tick where its subscription began does not, has been in
one of its batches (`Delivered`), as long as both tick rows are there when the events are collected
and ticks see more the later they are. Neither is kept by the code: the `next_tick` that an empty
cooperative receive leaves behind is named by no `last_tick` and by no batch, so its tick may be
pruned, and the next receive finds no row to start from, collects nothing and moves the cursor on
(`pruned_cursor_loses_event`). `Grounded` leaves these out.
-/

namespace Pgvs3.Stream

open List Option Function Conc Cursors

/-- Where a consumer has passed a tick, every event that the tick sees, that its first tick does not
see and that was not truncated before has been in a batch. -/
def NoLoss (w : World) : Prop :=
  ∀ s ∈ w.cur.subs, ∀ o, w.hist.origin s.consumer = some o → ∀ tick, (tick ≤ s.lastTick ∨ tick ≤ s.nextTick ∧ w.cur.allAcked s.consumer) →
    ∀ e ∈ w.hist.log, w.cur.SeesAt tick e.txid → ¬ w.cur.SeesAt o.tick e.txid → e ∉ o.gone → e.seq ∈ w.hist.got s.consumer

/-- A tick gets its id before another one is made; both tick rows are there when the events between
them are collected. -/
def Tx.Grounded (cur : Cursors) : Tx → Prop
  | .receive _ (.stamped _ _ m) => m = cur.tickSeq
  | .receive _ (.ranged startAt endAt own) => (∃ t ∈ cur.ticks, t.id = startAt) ∧ ∃ t ∈ cur.ticks ++ own.toList, t.id = endAt
  | _ => True

instance (cur : Cursors) (t : Tx) : Decidable (t.Grounded cur) :=
  decidable_of_iff ((match t with
    | .receive _ (.stamped _ _ m) => decide (m = cur.tickSeq)
    | .receive _ (.ranged startAt endAt own) => decide ((∃ t ∈ cur.ticks, t.id = startAt) ∧ ∃ t ∈ cur.ticks ++ own.toList, t.id = endAt)
    | _ => true : Bool) = true)
    (by unfold Tx.Grounded; split <;> simp)

def Grounded (w : World) (a : Act) : Prop := ∀ t ∈ w.call a, t.Grounded w.cur

instance (w : World) (a : Act) : Decidable (Grounded w a) := inferInstanceAs (Decidable (∀ t ∈ w.call a, t.Grounded w.cur))

variable {cur : Cursors} {x startAt i c b base began endAt : Nat} {r : Receive} {seqs : List Nat} {w w' : World} {a : Act}
  {own : Option Tick} {chain : List Batch}

theorem Tx.Grounded.inOrder {t : Tx} (h : t.Grounded cur) : t.InOrder cur := by
  unfold Tx.InOrder
  split
  · exact h
  · trivial

theorem Cursors.Keeps.seesAt {cur' : Cursors} (h : cur.Keeps cur') {n : Nat} (hn : cur.Known n) : cur'.SeesAt n x ↔ cur.SeesAt n x := by
  obtain ⟨s, hs⟩ := isSome_iff_exists.1 hn
  simp [SeesAt, h.snaps n s hs, hs]

theorem Held.collected_known (hw : Held w)
    (hmem : Tx.receive r (.collected startAt endAt own seqs) ∈ w.txs) : w.cur.Known startAt ∧ w.cur.Known endAt := by
  have hok : r.Ok w.cur (.collected startAt endAt own seqs) := hw.txs _ hmem
  obtain ⟨x, hx, -, hstart, -, hend, -⟩ := hok.row
  exact ⟨hstart ▸ hok.next_known hw.cur hx, hend⟩

/-! ## What has been delivered -/

structure Delivered (w : World) : Prop where
  origin : ∀ s ∈ w.cur.subs, ∀ o, w.hist.origin s.consumer = some o → w.cur.Known o.tick
  got : ∀ s ∈ w.cur.subs, ∀ o, w.hist.origin s.consumer = some o → ∀ e ∈ w.hist.log, w.cur.SeesAt s.nextTick e.txid →
    ¬ w.cur.SeesAt o.tick e.txid → e ∉ o.gone → e.seq ∈ w.hist.got s.consumer
  /-- Whatever was truncated since the consumer subscribed, its cursor has seen. -/
  gone : ∀ s ∈ w.cur.subs, ∀ o, w.hist.origin s.consumer = some o → ∀ e ∈ w.hist.gone, e ∉ o.gone → w.cur.SeesAt s.nextTick e.txid
  /-- A receive has found all that lies between its ticks. -/
  found : ∀ r startAt endAt own seqs, Tx.receive r (.collected startAt endAt own seqs) ∈ w.txs →
    ∀ e ∈ w.seg.events, w.cur.SeesAt endAt e.txid → ¬ w.cur.SeesAt startAt e.txid → e.seq ∈ seqs
  /-- What is about to be truncated, every cursor has seen. -/
  cleared : ∀ target x began, w.rotation = some (.checked target x began) → ∀ e ∈ w.seg.events, e.segment = target →
    ∀ s ∈ w.cur.subs, w.cur.SeesAt s.nextTick e.txid

theorem Delivered.noLoss (hw : Held w) (ho : Ordered w) (h : Delivered w) : NoLoss w := by
  intro s hs o hso tick htick e he hsees hnot hgone
  refine h.got s hs o hso e he (ho.seesAt ?_ (hw.cur.known s hs).2 hsees) hnot hgone
  rcases htick with hlast | ⟨hnext, -⟩
  · exact Nat.le_trans hlast (hw.cur.le s hs)
  · exact hnext

theorem Delivered.same (h : Delivered w) (hsubs : w'.cur.subs = w.cur.subs) (hsnaps : w'.cur.snaps = w.cur.snaps)
    (hhist : w'.hist = w.hist) (hevents : w'.seg.events = w.seg.events)
    (hrot : ∀ target x began, w'.rotation = some (.checked target x began) → w.rotation = some (.checked target x began))
    (htxs : ∀ r startAt endAt own seqs, Tx.receive r (.collected startAt endAt own seqs) ∈ w'.txs →
      Tx.receive r (.collected startAt endAt own seqs) ∈ w.txs) : Delivered w' := by
  have hsees : ∀ n x, w'.cur.SeesAt n x ↔ w.cur.SeesAt n x := fun n x => by rw [SeesAt, hsnaps]; rfl
  refine ⟨fun s hs o ho => ?_, fun s hs o ho e he => ?_, fun s hs o ho e he => ?_, fun r a z own seqs hmem e he => ?_,
    fun target x began hr e he hseg s hs => ?_⟩
  · rw [Known, hsnaps]
    exact h.origin s (hsubs ▸ hs) o (hhist ▸ ho)
  · rw [hsees, hsees, hhist]
    exact h.got s (hsubs ▸ hs) o (hhist ▸ ho) e (hhist ▸ he)
  · rw [hsees]
    exact h.gone s (hsubs ▸ hs) o (hhist ▸ ho) e (hhist ▸ he)
  · rw [hsees, hsees]
    exact h.found r a z own seqs (htxs r a z own seqs hmem) e (hevents ▸ he)
  · rw [hsees]
    exact h.cleared target x began (hrot target x began hr) e (hevents ▸ he) hseg s (hsubs ▸ hs)

/-- Events that have been committed just now are seen by no tick yet. -/
theorem delivered_commit {rows : List Event} {moved : List Nat} (hx : Xids w) (hg : Segs w) (h : Delivered w)
    (hi : w.txs[i]? = some (.written x rows moved)) : Delivered (w.commit i rows moved) := by
  have hold := mem_of_getElem? hi
  have hunseen : ∀ e ∈ rows, ∀ n, ¬ w.cur.SeesAt n e.txid := by
    rintro e he n ⟨s, hs, hsees⟩
    have hxid : x = e.txid := some.inj (hg.rows _ hold e he).2
    refine (hx.snaps n s hs _ hsees).2 (mem_running.2 (.inl ⟨_, hold, ?_⟩))
    rw [← hxid]
    rfl
  refine ⟨h.origin, fun s hs o ho e he hsees hnot hgone => ?_, h.gone, fun r a z own seqs hmem e he hsees hnot => ?_,
    fun target y began hr => ?_⟩
  · rcases mem_append.1 he with he | he
    · exact h.got s hs o ho e he hsees hnot hgone
    · exact absurd hsees (hunseen e he _)
  · have hmem := mem_of_mem_set hmem nofun
    rcases mem_append.1 he with he | he
    · exact h.found r a z own seqs hmem e he hsees hnot
    · exact absurd hsees (hunseen e he _)
  · -- no rotation holds the lock while the append does
    have hfree := hg.shared (by rw [show w.rotation = _ from hr]; nofun) _ hold
    cases hfree

theorem delivered_enter {tick : Nat} (h : Delivered w) (hknown : w.cur.Known tick) (hnew : w.cur.sub? c = none)
    (hrot : ∀ target x began, w.rotation ≠ some (.checked target x began)) : Delivered (w.enter c tick) := by
  have hne := sub?_eq_none.1 hnew
  have hsub : ∀ s ∈ (w.enter c tick).cur.subs, ∀ o, (w.enter c tick).hist.origin s.consumer = some o →
      (s ∈ w.cur.subs ∧ w.hist.origin s.consumer = some o) ∨ (s = ⟨c, tick, tick⟩ ∧ o = ⟨tick, w.hist.gone⟩) := by
    intro s hs o ho
    rcases mem_append.1 hs with hs | hs
    · simp only [World.enter, update_of_ne (hne s hs)] at ho
      exact .inl ⟨hs, ho⟩
    · rw [mem_singleton.1 hs] at ho ⊢
      simp only [World.enter, update_self] at ho
      exact .inr ⟨rfl, (some.inj ho).symm⟩
  refine ⟨fun s hs o ho => ?_, fun s hs o ho e he hsees hnot hgone => ?_, fun s hs o ho e he hgone => ?_, h.found,
    fun target x began hr => absurd hr (hrot target x began)⟩
  · rcases hsub s hs o ho with ⟨hs, ho⟩ | ⟨-, rfl⟩
    · exact h.origin s hs o ho
    · exact hknown
  · rcases hsub s hs o ho with ⟨hs, ho⟩ | ⟨rfl, rfl⟩
    · exact h.got s hs o ho e he hsees hnot hgone
    · exact absurd hsees hnot
  · rcases hsub s hs o ho with ⟨hs, ho⟩ | ⟨rfl, rfl⟩
    · exact h.gone s hs o ho e he hgone
    · exact absurd he hgone

theorem delivered_enrol {p : Place} (hw : Held w) (hg : Segs w) (h : Delivered w)
    (hi : w.txs[i]? = some (.receive r p)) : Delivered (w.enrol r) := by
  have hok : r.Ok w.cur p := hw.txs _ (mem_of_getElem? hi)
  unfold World.enrol
  split
  · next hf =>
    refine delivered_enter h hok.known (hok.new hf) fun target x began hr => ?_
    have hfree := hg.shared (by rw [hr]; nofun) _ (mem_of_getElem? hi)
    cases hfree
  · exact h

/-- The query finds the events between the two ticks, since both rows are there. -/
theorem mem_collect (hw : Held w) (hown : ∀ t ∈ own, t.id = endAt ∧ w.cur.snaps endAt = some t.snapshot)
    (hrows : (∃ t ∈ w.cur.ticks, t.id = startAt) ∧ ∃ t ∈ w.cur.ticks ++ own.toList, t.id = endAt) {e : Event} (he : e ∈ w.seg.events)
    (hend : w.cur.SeesAt endAt e.txid) (hstart : ¬ w.cur.SeesAt startAt e.txid) : e.seq ∈ w.collect startAt endAt own := by
  obtain ⟨⟨lt, hlt, hltid⟩, ct, hct, hctid⟩ := hrows
  have hctsnap : w.cur.snaps endAt = some ct.snapshot := by
    rcases mem_append.1 hct with hct | hct
    · exact hctid ▸ hw.cur.tick ct hct
    · exact (hown ct (mem_toList.1 hct)).2
  have hdiff : Snapshot.diff lt.snapshot ct.snapshot e.txid := by
    refine Snapshot.diff_iff.2 ⟨?_, fun hsees => hstart ⟨lt.snapshot, hltid ▸ hw.cur.tick lt hlt, hsees⟩⟩
    obtain ⟨s, hs, hsees⟩ := hend
    cases hctsnap.symm.trans hs
    exact hsees
  refine mem_map.2 ⟨e, mem_filter.2 ⟨he, ?_⟩, rfl⟩
  simp only [decide_eq_true_eq]
  exact ⟨lt, mem_append_left _ hlt, hltid, ct, hct, hctid, hdiff⟩

theorem delivered_newTick (i : Nat) (r : Receive) (startAt : Nat) (s : Snapshot) (hw : Held w) (h : Delivered w) :
    Delivered (w.newTick i r startAt s) := by
  have hk : w.cur.Keeps (w.newTick i r startAt s).cur := (hw.cur.newTick s).2
  have hsub : ∀ x ∈ w.cur.subs, ∀ y, (w.newTick i r startAt s).cur.SeesAt x.nextTick y ↔ w.cur.SeesAt x.nextTick y :=
    fun x hx y => hk.seesAt (hw.cur.known x hx).2
  refine ⟨fun x hx o ho => hk.known (h.origin x hx o ho), fun x hx o ho e he => ?_, fun x hx o ho e he => ?_,
    fun r' a z own seqs hmem e he => ?_, fun target y began hr e he hseg x hx => ?_⟩
  · rw [hsub x hx, hk.seesAt (h.origin x hx o ho)]
    exact h.got x hx o ho e he
  · rw [hsub x hx]
    exact h.gone x hx o ho e he
  · have hmem := mem_of_mem_set hmem nofun
    obtain ⟨hstart, hend⟩ := hw.collected_known hmem
    rw [hk.seesAt hend, hk.seesAt hstart]
    exact h.found r' a z own seqs hmem e he
  · rw [hsub x hx]
    exact h.cleared target y began hr e he hseg x hx

theorem delivered_settle (hw : Held w)
    (hg : Segs w) (ho : Ordered w) (h : Delivered w) (hi : w.txs[i]? = some (.receive r (.collected startAt endAt own seqs))) :
    Delivered (w.settle i r startAt endAt own seqs) := by
  have hold := mem_of_getElem? hi
  have hok : r.Ok w.cur (.collected startAt endAt own seqs) := hw.txs _ hold
  have hv := delivered_enrol hw hg h hi
  obtain ⟨hcur, hk, -, s, hs, hc, -, rfl, hlt, hknown, -⟩ := enrol_spec hw hok
  have hsnaps := enrol_snaps w r
  have hsees : ∀ n x, (w.settle i r s.nextTick endAt own seqs).cur.SeesAt n x ↔ (w.enrol r).cur.SeesAt n x := fun n x => Iff.rfl
  -- the cursor moves from the tick at which it was to a later one
  have hmove : ∀ x, (w.enrol r).cur.SeesAt s.nextTick x → (w.enrol r).cur.SeesAt endAt x := by
    intro x hx
    rw [SeesAt, hsnaps] at hx ⊢
    exact ho.seesAt (Nat.le_of_lt hlt) hknown hx
  have hrow : ∀ x ∈ (w.enrol r).cur.subs, (x.consumer = r.consumer ∧ x = s) ∨
      (x.consumer ≠ r.consumer ∧ w.advance r endAt seqs x = x) := by
    intro x hx
    by_cases hxc : x.consumer = r.consumer
    · exact .inl ⟨hxc, hcur.inj x hx s hs (hxc.trans hc.symm)⟩
    · exact .inr ⟨hxc, advance_other hxc⟩
  have hsubs : ∀ y ∈ (w.settle i r s.nextTick endAt own seqs).cur.subs, ∃ x ∈ (w.enrol r).cur.subs, w.advance r endAt seqs x = y :=
    fun y hy => mem_map.1 hy
  have hnext := (advance_self w endAt seqs hc).1
  refine ⟨fun y hy o hyo => ?_, fun y hy o hyo e he hend hnot hgone => ?_, fun y hy o hyo e he hgone => ?_,
    fun r' a z own' seqs' hmem e he => ?_, fun target x began hr => ?_⟩
  · obtain ⟨x, hx, rfl⟩ := hsubs y hy
    rw [advance_consumer] at hyo
    exact hv.origin x hx o hyo
  · obtain ⟨x, hx, rfl⟩ := hsubs y hy
    rw [advance_consumer] at hyo ⊢
    rw [hsees] at hend hnot
    rcases hrow x hx with ⟨hxc, rfl⟩ | ⟨hxc, heq⟩
    · rw [hnext] at hend
      show e.seq ∈ update (w.enrol r).hist.got r.consumer ((w.enrol r).hist.got r.consumer ++ seqs) x.consumer
      rw [hxc, update_self]
      by_cases hstart : (w.enrol r).cur.SeesAt x.nextTick e.txid
      · exact mem_append_left _ (hxc ▸ hv.got x hx o hyo e he hstart hnot hgone)
      · -- not truncated, since the cursor had not seen it, so the query has found it
        refine mem_append_right _ ?_
        have hlog : e ∈ w.hist.log := (enrol_log w r).1 ▸ he
        rcases hg.kept e hlog with hgone' | he'
        · exact absurd (hv.gone x hx o hyo e ((enrol_log w r).2.symm ▸ hgone') hgone) hstart
        · rw [SeesAt, hsnaps] at hend hstart
          exact h.found r x.nextTick endAt own seqs hold e he' hend hstart
    · rw [heq] at hend
      show e.seq ∈ update (w.enrol r).hist.got r.consumer ((w.enrol r).hist.got r.consumer ++ seqs) x.consumer
      rw [update_of_ne hxc]
      exact hv.got x hx o hyo e he hend hnot hgone
  · obtain ⟨x, hx, rfl⟩ := hsubs y hy
    rw [advance_consumer] at hyo
    have hseen := hv.gone x hx o hyo e he hgone
    rcases hrow x hx with ⟨-, rfl⟩ | ⟨-, heq⟩
    · rw [hnext]
      exact hmove _ hseen
    · rw [heq]
      exact hseen
  · rw [settle_txs] at hmem
    have hmem := mem_of_mem_set hmem nofun
    have hseg : (w.settle i r s.nextTick endAt own seqs).seg = w.seg := (enrol_rest w r).2.2
    rw [hseg] at he
    rw [hsees, hsees, SeesAt, SeesAt, hsnaps]
    exact h.found r' a z own' seqs' hmem e he
  · have hrot : (w.settle i r s.nextTick endAt own seqs).rotation = w.rotation := (enrol_rest w r).2.1
    have hfree := hg.shared (by rw [← hrot, hr]; nofun) _ hold
    cases hfree

theorem ackEnd_next (hw : Held w) (hi : w.txs[i]? = some (.chained b c base chain)) :
    ∀ y ∈ (w.ackEnd i b c chain).cur.subs, ∃ x ∈ w.cur.subs, x.consumer = y.consumer ∧ x.nextTick = y.nextTick := by
  have hok : (_ ∧ _) ∧ _ := hw.txs _ (mem_of_getElem? hi)
  intro y hy
  by_cases hne : chain = []
  · exact ⟨y, by simpa [World.ackEnd, hne] using hy, rfl, rfl⟩
  · simp only [World.ackEnd, if_neg hne] at hy
    obtain ⟨x, hx, rfl⟩ := mem_map.1 hy
    refine ⟨x, hx, ?_⟩
    split
    · next hc =>
      obtain ⟨z, hz, hend⟩ := chainEnd_mem hne
      obtain ⟨-, -, s, hs, hsc, hle⟩ := hok.2 z hz
      cases hw.cur.inj x hx s hs (hc.trans hsc.symm)
      exact ⟨rfl, (Nat.max_eq_left (hend ▸ hle)).symm⟩
    · exact ⟨rfl, rfl⟩

theorem delivered_ackEnd (hw : Held w) (h : Delivered w)
    (hi : w.txs[i]? = some (.chained b c base chain)) : Delivered (w.ackEnd i b c chain) := by
  have hnext := ackEnd_next hw hi
  refine ⟨fun y hy o hyo => ?_, fun y hy o hyo => ?_, fun y hy o hyo => ?_, fun r a z own seqs hmem => ?_,
    fun target x began hr e he hseg y hy => ?_⟩
  · obtain ⟨x, hx, hc, -⟩ := hnext y hy
    exact h.origin x hx o (hc ▸ hyo)
  · obtain ⟨x, hx, hc, hn⟩ := hnext y hy
    rw [← hn, ← hc]
    exact h.got x hx o (hc ▸ hyo)
  · obtain ⟨x, hx, hc, hn⟩ := hnext y hy
    rw [← hn]
    exact h.gone x hx o (hc ▸ hyo)
  · exact h.found r a z own seqs (mem_of_mem_set hmem nofun)
  · obtain ⟨x', hx', -, hn⟩ := hnext y hy
    rw [← hn]
    exact h.cleared target x began hr e he hseg x' hx'

theorem delivered_truncate {target : Nat} (h : Delivered w) (hr : w.rotation = some (.checked target x began)) :
    Delivered (w.truncate target x began) := by
  refine ⟨h.origin, h.got, fun s hs o ho e he hgone => ?_, fun r a z own seqs hmem e he => ?_, nofun⟩
  · rcases mem_append.1 he with he | he
    · exact h.gone s hs o ho e he hgone
    · obtain ⟨he, hseg⟩ := mem_filter.1 he
      exact h.cleared target x began hr e he (by simpa using hseg) s hs
  · exact h.found r a z own seqs hmem e (mem_filter.1 he).1

theorem delivered_check (hw : Held w) (hg : Segs w) (ho : Ordered w) (h : Delivered w)
    (hcheck : ¬ ((∃ e ∈ w.seg.events, e.segment = (w.seg.current + 1) % 3) ∧
      (w.pinned ((w.seg.current + 1) % 3) ∨ w.batched ((w.seg.current + 1) % 3)))) :
    Delivered { w with rotation := some (.checked ((w.seg.current + 1) % 3) w.xid began), xid := w.xid + 1 } := by
  refine { h with cleared := fun target x began' hr e he hseg s hs => ?_ }
  have hsees := (cleared_check hw hg hcheck target x began' hr e he hseg).1 s hs
  exact ho.seesAt (hw.cur.le s hs) (hw.cur.known s hs).2 hsees

theorem delivered_next (hw : Held w) (hx : Xids w) (hg : Segs w) (ho : Ordered w) (h : Delivered w)
    (hgr : Grounded w a) (hs : Step w a w') : Delivered w' := by
  cases hs with
  | connect =>
    exact h.same rfl rfl rfl rfl (fun _ _ _ hr => hr) fun _ _ _ _ _ hmem => mem_of_mem_push hmem (by simp)
  | stage _ i hi hstage hrun =>
    cases hstage with
    | collected r startAt endAt own =>
      cases hrun (by simp) (by simp)
      have hok : r.Ok w.cur (.ranged startAt endAt own) := hw.txs _ (mem_of_getElem? hi)
      obtain ⟨_, -, -, -, -, -, hown⟩ := hok.row
      refine { h with found := fun r' a z own' seqs hmem e he hend hstart => ?_ }
      rcases mem_or_eq_of_mem_set hmem with hmem | heq
      · exact h.found r' a z own' seqs hmem e he hend hstart
      · cases heq
        exact mem_collect hw hown (hgr _ hi) he hend hstart
    | _ => exact h.same rfl rfl rfl rfl (fun _ _ _ hr => hr) fun _ _ _ _ _ hmem => mem_of_mem_set hmem (by simp)
  | nothing => exact h
  | other | write | prune => exact h.same rfl rfl rfl rfl (fun _ _ _ hr => hr) fun _ _ _ _ _ hmem => mem_of_mem_set hmem (by simp)
  | commit i x rows moved hi => exact delivered_commit hx hg h hi
  | enter i c target hi hsub hfree =>
    have hknown : w.cur.Known target := hw.txs _ (mem_of_getElem? hi)
    have henter : Delivered (w.enter c target) := by
      refine delivered_enter h hknown hsub fun t x began hr => ?_
      have hlocked := hg.shared (by rw [hr]; nofun) _ (mem_of_getElem? hi)
      cases hlocked
    exact henter.same rfl rfl rfl rfl (fun _ _ _ hr => hr) fun _ _ _ _ _ hmem => mem_of_mem_set hmem (by simp)
  | enrol i r p hi =>
    refine (delivered_enrol hw hg h hi).same rfl rfl rfl rfl (fun _ _ _ hr => hr) ?_
    exact fun _ _ _ _ _ hmem => mem_of_mem_set hmem (by simp)
  | newTick i r startAt s m hi => exact delivered_newTick i r startAt s hw h
  | settle i r startAt endAt own seqs hi => exact delivered_settle hw hg ho h hi
  | ackEnd i b c base chain hi hfree => exact delivered_ackEnd hw h hi
  | rotate | giveUp => exact h.same rfl rfl rfl rfl (by simp) fun _ _ _ _ _ hmem => hmem
  | check began hr hcheck => exact delivered_check hw hg ho h hcheck
  | truncate target x began hr => exact delivered_truncate h hr
  | elapse | nack => exact h.same rfl rfl rfl rfl (fun _ _ _ hr => hr) fun _ _ _ _ _ hmem => hmem

structure DeliveryInv (w : World) : Prop where
  held : Held w
  xids : Xids w
  segs : Segs w
  ordered : Ordered w
  delivered : Delivered w

theorem deliveryInv_next (h : DeliveryInv w) (hgr : Grounded w a) (hn : next w a = some w') : DeliveryInv w' := by
  have hs := step_of_next hn
  exact ⟨held_next h.held hs, xids_next h.xids (fun t ht e he => (h.segs.rows t ht e he).2) hs, segs_next h.xids h.segs hs,
    ordered_next h.held h.xids h.ordered (fun t ht => (hgr t ht).inOrder) hs,
    delivered_next h.held h.xids h.segs h.ordered h.delivered hgr hs⟩

theorem deliveryInv_init (maxRetries retention : Nat) : DeliveryInv (World.init maxRetries retention) :=
  ⟨held_init _ _, xids_init _ _, segs_init _ _, ordered_init _ _, nofun, nofun, nofun, nofun, nofun⟩

/-- In every grounded run, a consumer has been given every event that a tick it has passed sees. -/
theorem no_loss (maxRetries retention : Nat) (acts : List Act) (w : World)
    (hok : machine.Allowed Grounded (World.init maxRetries retention) acts)
    (hrun : machine.run (World.init maxRetries retention) acts = some w) : NoLoss w := by
  have hstep : ∀ v a v', DeliveryInv v → Grounded v a → machine.next v a = some v' → DeliveryInv v' :=
    fun _ _ _ hv hgr hn => deliveryInv_next hv hgr hn
  have h := Machine.invariant hstep (deliveryInv_init maxRetries retention) hok hrun
  exact h.delivered.noLoss h.held h.ordered

def receiveAndAck : List Act :=
  [.connect] ++ call 0 2 (.subscribe 1 none) ++ call 0 2 (.append [1]) ++ call 0 8 (.receive 1 0 10) ++ call 0 2 (.ack 1)

theorem acked_event_delivered : ∃ w, machine.run (World.init 5 10) receiveAndAck = some w ∧ w.cur.subs = [⟨1, 2, 2⟩] ∧
    w.hist.got 1 = [1] ∧ NoLoss w := by
  have hrun : ((machine.runIf Grounded (World.init 5 10) receiveAndAck).map fun w => (w.cur.subs, w.hist.got 1)) =
      some ([⟨1, 2, 2⟩], [1]) := by decide +kernel
  obtain ⟨w, hw, heq⟩ := map_eq_some_iff.1 hrun
  obtain ⟨hok, hw⟩ := Machine.runIf_spec hw
  exact ⟨w, hw, congrArg Prod.fst heq, congrArg Prod.snd heq, no_loss 5 10 _ w hok hw⟩

/-- Consumers 1 and 2 make ticks 2 and 3 over event 1, and an empty cooperative receive leaves the
`next_tick` of consumer 1 at 3. Event 2 comes, consumer 2 goes on to tick 4, tick 3 is pruned. -/
def pruneUnderCursor : List Act :=
  [Act.connect, .connect] ++ call 0 2 (.subscribe 1 none) ++ call 0 2 (.subscribe 2 none) ++ call 0 2 (.append [1]) ++
    call 0 6 (.receive 1 1 10) ++ call 1 8 (.receive 2 0 10) ++ [Act.run 0, .run 0] ++ call 0 5 (.receive 1 2 10) ++
    call 0 2 (.ack 1) ++ call 0 2 (.ack 2) ++ call 0 2 (.append [2]) ++ call 0 8 (.receive 2 0 10) ++ call 0 2 (.ack 3) ++
    [Act.elapse 11, .start 0 11 (.pruneTicks 10), .run 0] ++ call 0 5 (.receive 1 1 10)

/-- The next receive of consumer 1 starts at a tick that is gone: its cursors go to 4, and it never
gets event 2. -/
theorem pruned_cursor_loses_event : ¬ ∀ (maxRetries retention : Nat) (acts : List Act) (w : World),
      machine.run (World.init maxRetries retention) acts = some w → NoLoss w := by
  intro hclaim
  have hrun : ((machine.run (World.init 5 10) pruneUnderCursor).map fun w => decide (w.cur.subs[0]? = some ⟨1, 4, 4⟩ ∧
      w.hist.origin 1 = some ⟨1, []⟩ ∧ w.hist.log[1]? = some ⟨2, 0, 2, 2, 0⟩ ∧
        ((w.cur.snaps 4).map fun s => decide (s.sees 2)) = some true ∧
        ((w.cur.snaps 1).map fun s => decide (s.sees 2)) = some false ∧ w.hist.got 1 = [1])) = some true := by decide +kernel
  obtain ⟨w, hw, heq⟩ := map_eq_some_iff.1 hrun
  obtain ⟨hsub, horigin, hevent, hlast, hfirst, hgot⟩ := of_decide_eq_true heq
  obtain ⟨s, hs, hsees⟩ := map_eq_some_iff.1 hlast
  have hnot : ¬ w.cur.SeesAt 1 2 := by
    rintro ⟨s', hs', hsees'⟩
    rw [hs'] at hfirst
    exact of_decide_eq_false (some.inj hfirst) hsees'
  have hmem := hclaim 5 10 _ w hw _ (mem_of_getElem? hsub) _ horigin 4 (.inl (Nat.le_refl _)) _ (mem_of_getElem? hevent)
    ⟨s, hs, of_decide_eq_true hsees⟩ hnot nofun
  rw [hgot] at hmem
  cases mem_singleton.1 hmem

end Pgvs3.Stream
