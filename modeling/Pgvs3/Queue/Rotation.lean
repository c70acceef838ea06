import Pgvs3.Queue.StreamXids
/-!
# What a rotation truncates

Appends, receives and subscriptions are kept out from the check to the truncation by the advisory
lock; acks are not. An ack that moves the cursor while another ack of the same consumer commits puts
`last_tick` back to where its own, shorter chain ends (`ack_moves_back_under_rotation`). `Steady`
asks of an ack that `last_tick` is still where its chain began, and of a tick that it gets its id
before another one is made.
-/

namespace Pgvs3.Stream

open List

/-- The event is visible at every cursor, in no active batch, and no later receive has to hand it
out. -/
structure Passed (cur : Cursors) (e : Event) : Prop where
  last : ∀ s ∈ cur.subs, cur.SeesAt s.lastTick e.txid
  batch : ∀ b ∈ cur.batches, b.acked = false → e.seq ∉ b.seqs
  owed : ∀ s ∈ cur.subs, cur.SeesAt s.nextTick e.txid

/-- What a truncation removes has been passed; and after the check nothing is added to the segment
it has let go. -/
structure RotationSafe (w : World) : Prop where
  removed : ∀ w', next w .truncate = some w' → ∀ e ∈ w.seg.events, e ∉ w'.seg.events → Passed w.cur e
  closed : ∀ target x began, w.rotation = some (.checked target x began) → ∀ a w', next w a = some w' →
    ∀ e ∈ w'.seg.events, e.segment = target → e ∈ w.seg.events

/-- A tick gets its id before another one is made; an ack moves the cursor while it is where the
chain began. -/
def Tx.Steady (cur : Cursors) : Tx → Prop
  | .receive _ (.stamped _ _ m) => m = cur.tickSeq
  | .chained _ c base chain => chain ≠ [] → ∀ s ∈ cur.sub? c, s.lastTick = base
  | _ => True

instance (cur : Cursors) (t : Tx) : Decidable (t.Steady cur) :=
  decidable_of_iff ((match t with
    | .receive _ (.stamped _ _ m) => decide (m = cur.tickSeq)
    | .chained _ c base chain => decide (chain ≠ [] → ∀ s ∈ cur.sub? c, s.lastTick = base)
    | _ => true : Bool) = true)
    (by unfold Tx.Steady; split <;> simp only [decide_eq_true_iff])

def Steady (w : World) (a : Act) : Prop := ∀ t ∈ w.call a, t.Steady w.cur

instance (w : World) (a : Act) : Decidable (Steady w a) := inferInstanceAs (Decidable (∀ t ∈ w.call a, t.Steady w.cur))

variable {t : Tx} {w w' : World} {began i x : Nat} {a : Act}

theorem Tx.Steady.inOrder {cur : Cursors} (h : t.Steady cur) : t.InOrder cur := by
  unfold Tx.InOrder
  split
  · exact h
  · trivial

/-! ## From the check to the truncation -/

/-- What the rotation is about to truncate is visible at every cursor and in no batch. -/
def Cleared (w : World) : Prop :=
  ∀ target x began, w.rotation = some (.checked target x began) → ∀ e ∈ w.seg.events, e.segment = target →
    (∀ s ∈ w.cur.subs, w.cur.SeesAt s.lastTick e.txid) ∧ ∀ b ∈ w.cur.batches, e.seq ∉ b.seqs

theorem Cleared.same (h : Cleared w) (hrot : w'.rotation = w.rotation) (hevents : w'.seg.events = w.seg.events)
    (hsubs : w'.cur.subs = w.cur.subs) (hsnaps : w'.cur.snaps = w.cur.snaps)
    (hbatches : w'.cur.batches = w.cur.batches) : Cleared w' := by
  intro target x began hr e he hseg
  obtain ⟨hsees, hbatch⟩ := h target x began (hrot ▸ hr) e (hevents ▸ he) hseg
  refine ⟨fun s hs => ?_, hbatches ▸ hbatch⟩
  unfold Cursors.SeesAt
  rw [hsnaps]
  exact hsees s (hsubs ▸ hs)

theorem cleared_of_not_checked (h : ∀ target x began, w.rotation ≠ some (.checked target x began)) : Cleared w :=
  fun target x began hr => absurd hr (h target x began)

/-- The checks: every cursor is past the seal, and every event of the segment is before it. -/
theorem cleared_check (hw : Held w) (hg : Segs w) (hcheck : ¬ ((∃ e ∈ w.seg.events, e.segment = (w.seg.current + 1) % 3) ∧
      (w.pinned ((w.seg.current + 1) % 3) ∨ w.batched ((w.seg.current + 1) % 3)))) :
    Cleared { w with rotation := some (.checked ((w.seg.current + 1) % 3) w.xid began), xid := w.xid + 1 } := by
  intro target x began' hr e he hseg
  cases hr
  have hfree : ¬ (w.pinned ((w.seg.current + 1) % 3) ∨ w.batched ((w.seg.current + 1) % 3)) := fun h => hcheck ⟨⟨e, he, hseg⟩, h⟩
  refine ⟨fun s hs => ?_, fun b hb hmem => ?_⟩
  · have hpin : ¬ w.pinned ((w.seg.current + 1) % 3) := fun h => hfree (.inl h)
    unfold World.pinned at hpin
    push Not at hpin
    obtain ⟨y, hy, hsubs⟩ := hpin
    obtain ⟨⟨t, ht, hid⟩, hmin⟩ := hsubs s hs
    have hlt : e.txid < y := hg.seals e he y (by rw [hseg]; exact Option.mem_toList.1 hy)
    refine ⟨t.snapshot, hid ▸ hw.cur.tick t ht, Snapshot.sees_of_lt_xmin ?_⟩
    exact Nat.lt_trans hlt (hmin t ht hid)
  · exact hfree (.inr ⟨b, hb, e.seq, hmem, e, he, rfl, hseg⟩)

theorem cleared_ackEnd {b c base : Nat} {chain : List Batch} (hw : Held w) (ho : Ordered w) (h : Cleared w)
    (hi : w.txs[i]? = some (.chained b c base chain)) (hs : chain ≠ [] → ∀ s ∈ w.cur.sub? c, s.lastTick = base) :
    Cleared (w.ackEnd i b c chain) := by
  have hok : (_ ∧ _) ∧ _ := hw.txs _ (mem_of_getElem? hi)
  intro target x began hr e he hseg
  obtain ⟨hsees, hbatch⟩ := h target x began hr e he hseg
  refine ⟨fun s hsub => ?_, fun y hy => ?_⟩
  · show w.cur.SeesAt s.lastTick e.txid
    by_cases hne : chain = []
    · exact hsees s (by simpa [World.ackEnd, hne] using hsub)
    · simp only [World.ackEnd, if_neg hne] at hsub
      obtain ⟨s₀, hs₀, rfl⟩ := mem_map.1 hsub
      by_cases hc : s₀.consumer = c
      · have hbase := hs hne s₀ (hc ▸ hw.cur.sub?_eq hs₀)
        obtain ⟨y, hy, hend⟩ := chainEnd_mem hne
        obtain ⟨hlt, hknown, -⟩ := hok.2 y hy
        rw [hend] at hlt hknown
        simp only [if_pos hc]
        exact ho.seesAt (Nat.le_of_lt (hbase ▸ hlt)) hknown (hsees s₀ hs₀)
      · simp only [if_neg hc]
        exact hsees s₀ hs₀
  · obtain ⟨y₀, hy₀, -, -, -, -, hseqs, -⟩ := mem_mark (mem_filter.1 hy).1
    rw [← hseqs]
    exact hbatch y₀ hy₀

/-- A call that holds the advisory lock shared has kept every rotation out. -/
theorem cleared_of_shared (hg : Segs w) (hi : w.txs[i]? = some t) (ht : t.shared = true)
    (hrot : w'.rotation = w.rotation) : Cleared w' := by
  refine cleared_of_not_checked fun target x began hr => ?_
  have hfree := hg.shared (by rw [← hrot, hr]; nofun) t (mem_of_getElem? hi)
  rw [ht] at hfree
  cases hfree

theorem cleared_next (hw : Held w) (hg : Segs w) (ho : Ordered w) (h : Cleared w) (hsteady : Steady w a)
    (hs : Step w a w') : Cleared w' := by
  cases hs with
  | write i segment rows moved hi ht => exact h.same rfl rfl rfl rfl rfl
  | commit _ _ _ _ hi | enter _ _ _ hi | newTick _ _ _ _ _ hi => exact cleared_of_shared hg hi rfl rfl
  | enrol _ r _ hi | settle _ r _ _ _ _ hi => exact cleared_of_shared hg hi rfl (enrol_rest w r).2.1
  | ackEnd i b c base chain hi hfree => exact cleared_ackEnd hw ho h hi (hsteady _ hi)
  | rotate | giveUp | truncate => exact cleared_of_not_checked nofun
  | check began hr hcheck => exact cleared_check hw hg hcheck
  | _ => exact h.same rfl rfl rfl rfl rfl

/-! ## Rotations -/

theorem Cleared.passed (hw : Held w) (ho : Ordered w) (h : Cleared w) {target : Nat}
    (hr : w.rotation = some (.checked target x began)) {e : Event} (he : e ∈ w.seg.events)
    (hseg : e.segment = target) : Passed w.cur e := by
  obtain ⟨hsees, hbatch⟩ := h target x began hr e he hseg
  refine ⟨hsees, fun b hb _ => hbatch b hb, fun s hs => ?_⟩
  exact ho.seesAt (hw.cur.le s hs) (hw.cur.known s hs).2 (hsees s hs)

/-- Only the commit of an append adds events, and it holds the lock that keeps rotations out. -/
theorem events_of_checked (hg : Segs w) {target : Nat} (hr : w.rotation = some (.checked target x began))
    (hs : Step w a w') : ∀ e ∈ w'.seg.events, e ∈ w.seg.events := by
  cases hs with
  | commit i y rows moved hi =>
    have hfree := hg.shared (by rw [hr]; nofun) _ (mem_of_getElem? hi)
    cases hfree
  | enrol i r p hi =>
    intro e he
    have hseg : ((w.enrol r).set i .idle).seg = w.seg := (enrol_rest w r).2.2
    exact hseg ▸ he
  | settle i r startAt endAt own seqs hi =>
    intro e he
    have hseg : (w.settle i r startAt endAt own seqs).seg = w.seg := (enrol_rest w r).2.2
    exact hseg ▸ he
  | truncate => exact fun e he => (mem_filter.1 he).1
  | _ => exact fun e he => he

structure RotationInv (w : World) : Prop where
  held : Held w
  xids : Xids w
  segs : Segs w
  ordered : Ordered w
  cleared : Cleared w

theorem rotationInv_next (h : RotationInv w) (hsteady : Steady w a) (hn : next w a = some w') : RotationInv w' := by
  have hs := step_of_next hn
  exact ⟨held_next h.held hs, xids_next h.xids (fun t ht e he => (h.segs.rows t ht e he).2) hs, segs_next h.xids h.segs hs,
    ordered_next h.held h.xids h.ordered (fun t ht => (hsteady t ht).inOrder) hs,
    cleared_next h.held h.segs h.ordered h.cleared hsteady hs⟩

theorem rotationInv_init (maxRetries retention : Nat) : RotationInv (World.init maxRetries retention) :=
  ⟨held_init _ _, xids_init _ _, segs_init _ _, ordered_init _ _, cleared_of_not_checked nofun⟩

/-- In every steady run, what a rotation truncates has been passed by every subscription, and
nothing is appended to a segment after its check. -/
theorem rotation_safe (maxRetries retention : Nat) (acts : List Act) (w : World)
    (hok : machine.Allowed Steady (World.init maxRetries retention) acts)
    (hrun : machine.run (World.init maxRetries retention) acts = some w) : RotationSafe w := by
  have hstep : ∀ v a v', RotationInv v → Steady v a → machine.next v a = some v' → RotationInv v' :=
    fun _ _ _ hv hs hn => rotationInv_next hv hs hn
  have h := Conc.Machine.invariant hstep (rotationInv_init maxRetries retention) hok hrun
  refine ⟨fun w' hn e he hgone => ?_, fun target x began hr a w' hn e he _ => events_of_checked h.segs hr (step_of_next hn) e he⟩
  simp only [next] at hn
  split at hn
  · next target x began hr =>
    cases hn
    have hseg : e.segment = target := by
      by_contra hne
      exact hgone (mem_filter.2 ⟨he, by simpa using hne⟩)
    exact h.cleared.passed h.held h.ordered hr he hseg
  · cases hn

/-- A consumer acks an event of segment 0 and one of segment 1; two rotations later the first is
about to go. -/
def ackedSegment : List Act :=
  [Act.connect] ++ call 0 2 (.subscribe 1 none) ++ call 0 2 (.append [1]) ++ call 0 8 (.receive 1 0 10) ++ call 0 2 (.ack 1) ++
    [Act.elapse 5, .rotate 5, .check, .truncate] ++ call 0 2 (.append [2]) ++ call 0 8 (.receive 1 0 10) ++ call 0 2 (.ack 2) ++
    [Act.elapse 5, .rotate 10, .check, .truncate, .elapse 5, .rotate 15, .check]

theorem acked_segment_checked : ∃ w, machine.run (World.init 5 10) ackedSegment = some w ∧ w.rotation = some (.checked 0 5 15) ∧
    w.seg.events = [⟨1, 0, 1, 1, 0⟩, ⟨2, 1, 3, 2, 0⟩] ∧ RotationSafe w := by
  have hrun : ((machine.runIf Steady (World.init 5 10) ackedSegment).map fun w => (w.rotation, w.seg.events)) =
      some (some (.checked 0 5 15), [⟨1, 0, 1, 1, 0⟩, ⟨2, 1, 3, 2, 0⟩]) := by decide +kernel
  obtain ⟨w, hw, heq⟩ := Option.map_eq_some_iff.1 hrun
  obtain ⟨hok, hw⟩ := Conc.Machine.runIf_spec hw
  exact ⟨w, hw, congrArg Prod.fst heq, congrArg Prod.snd heq, rotation_safe 5 10 _ w hok hw⟩

/-- The acks of batches 1 and 2 overlap, so that the row of batch 2 stays. Those of batches 3 and 4
overlap too: the one finds the chain up to tick 4, the other up to tick 3. The cursor goes to 4, the
rotation checks segment 0, and the cursor goes back to 3. -/
def overlappingAcks : List Act :=
  [Act.connect, .connect] ++ call 0 2 (.subscribe 1 none) ++ call 0 2 (.append [1]) ++ call 0 8 (.receive 1 1 10) ++
    call 0 2 (.append [2]) ++ call 0 8 (.receive 1 2 10) ++ call 0 2 (.append [3]) ++
    [Act.start 0 0 (.ack 1), .start 1 0 (.ack 2), .run 0, .run 1, .run 0, .run 1, .elapse 5, .rotate 5, .check, .truncate] ++
    call 0 8 (.receive 1 3 10) ++ call 0 2 (.append [4]) ++ call 0 8 (.receive 1 1 10) ++ [Act.elapse 5, .rotate 10, .check, .truncate] ++
    [Act.start 0 0 (.ack 3), .start 1 0 (.ack 4), .run 0, .run 1, .run 0, .elapse 5, .rotate 15, .check, .run 1]

/-- The event of batch 3 is about to be truncated, and the cursor does not see it. -/
theorem ack_moves_back_under_rotation : ¬ ∀ (maxRetries retention : Nat) (acts : List Act) (w : World),
      machine.run (World.init maxRetries retention) acts = some w → RotationSafe w := by
  intro hclaim
  have hrun : ((machine.run (World.init 5 10) overlappingAcks).map fun w =>
      (w.rotation, w.seg.events[2]?, w.cur.subs, (w.cur.snaps 3).map fun s => decide (s.sees 3))) =
        some (some (.checked 0 7 15), some ⟨3, 0, 3, 3, 0⟩, [⟨1, 3, 5⟩], some false) := by decide +kernel
  obtain ⟨w, hw, heq⟩ := Option.map_eq_some_iff.1 hrun
  simp only [Prod.mk.injEq] at heq
  obtain ⟨hrot, hevent, hsubs, hsnap⟩ := heq
  have hsafe := hclaim 5 10 _ w hw
  have hnext : next w .truncate = some (w.truncate 0 7 15) := by simp only [next, hrot]
  have hpassed := hsafe.removed _ hnext _ (mem_of_getElem? hevent) (by simp [World.truncate])
  obtain ⟨s, hs, hsees⟩ := hpassed.last ⟨1, 3, 5⟩ (by rw [hsubs]; exact mem_singleton.2 rfl)
  rw [hs] at hsnap
  exact of_decide_eq_false (Option.some.inj hsnap) hsees

end Pgvs3.Stream
