import Pgvs3.Queue.StreamCursors
/-!
# The cursor of a consumer with nothing left to ack

The batches of a consumer, in the order in which they were made, lead from its `last_tick` to its
`next_tick` without a gap, and the first of them is not acked (`Chained`). An empty cooperative
receive breaks this: it moves `next_tick` although no batch covers that step, and while another
member's batch is active it leaves `last_tick` behind (`empty_receive_leaves_gap`). Two acks that
overlap break it too: each misses the other's. `Orderly` leaves both out.
-/

namespace Pgvs3.Stream

open List Cursors

/-- A consumer all of whose batches are acked has its two cursors together and no batch row. -/
def CatchUp (w : World) : Prop :=
  ∀ s ∈ w.cur.subs, w.cur.allAcked s.consumer → s.lastTick = s.nextTick ∧ ∀ b ∈ w.cur.batches, b.consumer ≠ s.consumer

instance (w : World) : Decidable (CatchUp w) := inferInstanceAs (Decidable (∀ s ∈ w.cur.subs, _))

/-- What follows for a consumer all of whose batches are acked: a normal receive is not refused
(`PV003`), and no batch of it can hold a rotation back, since every batch row belongs to a consumer
with an active one. -/
structure Unhindered (w : World) : Prop where
  receive : ∀ i r, w.txs[i]? = some (.receive r .idle) → w.cur.allAcked r.consumer → receiveStep w i r .idle ≠ some (w.set i .idle)
  rotation : ∀ b ∈ w.cur.batches, ∃ b' ∈ w.cur.batches, b'.consumer = b.consumer ∧ b'.acked = false

/-- An empty cooperative receive ends while no batch of its consumer is active; an ack ends while
its chain is the one it would find now. -/
def Tx.Orderly (cur : Cursors) : Tx → Prop
  | .receive r (.collected _ _ _ seqs) => seqs = [] → r.member = 0 ∨ cur.allAcked r.consumer
  | .chained b c _ chain => ∀ s ∈ cur.sub? c, chain = cur.chain b c s.lastTick
  | _ => True

instance (cur : Cursors) (t : Tx) : Decidable (t.Orderly cur) :=
  decidable_of_iff ((match t with
    | .receive r (.collected _ _ _ seqs) => decide (seqs = [] → r.member = 0 ∨ cur.allAcked r.consumer)
    | .chained b c _ chain => decide (∀ s ∈ cur.sub? c, chain = cur.chain b c s.lastTick)
    | _ => true : Bool) = true)
    (by unfold Tx.Orderly; split <;> simp only [decide_eq_true_iff])

def Orderly (w : World) (a : Act) : Prop := ∀ t ∈ w.call a, t.Orderly w.cur

instance (w : World) (a : Act) : Decidable (Orderly w a) := inferInstanceAs (Decidable (∀ t ∈ w.call a, t.Orderly w.cur))

/-! ## Batches without a gap -/

/-- The batches lead from one tick to the other. -/
def Linked : List Batch → Nat → Nat → Prop
  | [], a, z => a = z
  | b :: l, a, z => b.startTick = a ∧ Linked l b.endTick z

variable {a z n b c i base tick : Nat} {l₁ l₂ l chain : List Batch} {cur cur' : Cursors} {w : World} {r : Receive}

theorem linked_append : Linked (l₁ ++ l₂) a z ↔ ∃ m, Linked l₁ a m ∧ Linked l₂ m z := by
  induction l₁ generalizing a with
  | nil => simp [Linked]
  | cons b l₁ ih =>
    simp only [cons_append, Linked, ih]
    constructor
    · rintro ⟨ha, m, h₁, h₂⟩
      exact ⟨m, ⟨ha, h₁⟩, h₂⟩
    · rintro ⟨m, ⟨ha, h₁⟩, h₂⟩
      exact ⟨ha, m, h₁, h₂⟩

theorem Linked.le (h : Linked l a z) (hspan : ∀ b ∈ l, b.startTick < b.endTick) : a ≤ z := by
  induction l generalizing a with
  | nil => exact Nat.le_of_eq h
  | cons b l ih =>
    obtain ⟨rfl, h⟩ := h
    have hb := hspan b mem_cons_self
    have hl := ih h fun x hx => hspan x (mem_cons_of_mem _ hx)
    omega

theorem Linked.lt (h : Linked l a z) (hspan : ∀ b ∈ l, b.startTick < b.endTick) (hne : l ≠ []) : a < z := by
  cases l with
  | nil => exact absurd rfl hne
  | cons b l =>
    obtain ⟨rfl, h⟩ := h
    have hb := hspan b mem_cons_self
    have hl := h.le fun x hx => hspan x (mem_cons_of_mem _ hx)
    omega

theorem Linked.start_le (h : Linked l a z) (hspan : ∀ b ∈ l, b.startTick < b.endTick) : ∀ b ∈ l, a ≤ b.startTick := by
  induction l generalizing a with
  | nil => nofun
  | cons b l ih =>
    obtain ⟨rfl, h⟩ := h
    intro x hx
    rcases mem_cons.1 hx with rfl | hx
    · exact le_rfl
    · have hb := hspan b mem_cons_self
      have hx := ih h (fun y hy => hspan y (mem_cons_of_mem _ hy)) x hx
      omega

theorem Linked.chainEnd_eq (h : Linked l a z) (hspan : ∀ b ∈ l, b.startTick < b.endTick) (hne : l ≠ []) : chainEnd l = z := by
  induction l generalizing a with
  | nil => exact absurd rfl hne
  | cons b l ih =>
    obtain ⟨-, h⟩ := h
    have hspan' : ∀ x ∈ l, x.startTick < x.endTick := fun x hx => hspan x (mem_cons_of_mem _ hx)
    have hcons : chainEnd (b :: l) = max b.endTick (chainEnd l) := rfl
    rw [hcons]
    by_cases hl : l = []
    · subst hl
      rw [← show b.endTick = z from h]
      exact Nat.max_eq_left (Nat.zero_le _)
    · rw [ih h hspan' hl]
      exact Nat.max_eq_right (h.le hspan')

theorem linked_mark (id : Nat) : Linked (mark l id) a z ↔ Linked l a z := by
  induction l generalizing a with
  | nil => rfl
  | cons b l ih =>
    have hcons : mark (b :: l) id = (if b.id = id then { b with acked := true } else b) :: mark l id := rfl
    rw [hcons]
    split <;> simp [Linked, ih]

/-! ## The chain of an ack is the acked part at the front -/

theorem follow_cons_of_lt {b : Batch} (hspan : ∀ x ∈ l, x.startTick < x.endTick)
    (hlt : b.startTick < tick) : follow (b :: l) n tick = follow l n tick := by
  induction n generalizing tick with
  | zero => rfl
  | succ n ih =>
    have hb : ¬ b.startTick = tick := Nat.ne_of_lt hlt
    simp only [follow, filter_cons, hb, decide_false, Bool.false_eq_true, if_false]
    refine flatMap_congr fun x hx => ?_
    obtain ⟨hx, hstart⟩ := mem_filter.1 hx
    simp only [decide_eq_true_eq] at hstart
    have hend := hspan x hx
    rw [ih (by omega)]

theorem follow_eq_takeWhile (h : Linked l a z) (hspan : ∀ b ∈ l, b.startTick < b.endTick)
    (hn : (l.filter (·.acked)).length ≤ n) : follow (l.filter (·.acked)) n a = l.takeWhile (·.acked) := by
  induction l generalizing a n with
  | nil =>
    cases n with
    | zero | succ => rfl
  | cons b l ih =>
    obtain ⟨rfl, h⟩ := h
    have hspan' : ∀ x ∈ l, x.startTick < x.endTick := fun x hx => hspan x (mem_cons_of_mem _ hx)
    have hb := hspan b mem_cons_self
    -- what comes after `b` starts later
    have hlater : (l.filter (·.acked)).filter (·.startTick = b.startTick) = [] := by
      refine filter_eq_nil_iff.2 fun x hx => ?_
      have hle := h.start_le hspan' x (mem_filter.1 hx).1
      simp only [decide_eq_true_eq]
      omega
    cases hacked : b.acked with
    | true =>
      simp only [filter_cons, hacked, if_true, length_cons] at hn ⊢
      cases n with
      | zero => omega
      | succ n =>
        have hspan'' : ∀ x ∈ l.filter (·.acked), x.startTick < x.endTick := fun x hx => hspan' x (mem_filter.1 hx).1
        simp only [follow, filter_cons, decide_true, if_true, hlater, flatMap_cons, flatMap_nil, append_nil, takeWhile_cons, hacked]
        rw [follow_cons_of_lt hspan'' hb, ih h hspan' (by omega)]
    | false =>
      simp only [filter_cons, hacked, Bool.false_eq_true, if_false, takeWhile_cons]
      cases n with
      | zero => rfl
      | succ n => simp [follow, hlater]

theorem filter_front (h : ((l₁ ++ l₂).map (·.id)).Nodup) : (l₁ ++ l₂).filter (·.id ∉ l₁.map (·.id)) = l₂ := by
  rw [map_append, nodup_append] at h
  have h₁ : l₁.filter (·.id ∉ l₁.map (·.id)) = [] := by
    refine filter_eq_nil_iff.2 fun x hx => ?_
    simpa using ⟨x, hx, rfl⟩
  have h₂ : l₂.filter (·.id ∉ l₁.map (·.id)) = l₂ := by
    refine filter_eq_self.2 fun x hx => ?_
    simp only [decide_eq_true_eq]
    exact fun hmem => h.2.2 _ hmem _ (mem_map_of_mem hx) rfl
  rw [filter_append, h₁, h₂, nil_append]

theorem of_mark (b c : Nat) : (mark cur.batches b).filter (·.consumer = c) = mark (cur.of c) b := by
  have hcomp : ((fun x : Batch => decide (x.consumer = c)) ∘ fun x => if x.id = b then { x with acked := true } else x) =
      fun x => decide (x.consumer = c) := by
    funext x
    simp only [Function.comp]
    split <;> rfl
  rw [mark, List.filter_map, hcomp]
  rfl

theorem chain_eq_takeWhile (h : cur.Ok) (hl : Linked (cur.of c) a z) : cur.chain b c a = (mark (cur.of c) b).takeWhile (·.acked) := by
  have hspan : ∀ x ∈ mark (cur.of c) b, x.startTick < x.endTick := by
    intro x hx
    obtain ⟨x₀, hx₀, -, -, hs, he, -⟩ := mem_mark hx
    rw [← hs, ← he]
    exact (h.span x₀ (mem_filter.1 hx₀).1).1
  have hfilter : ((mark cur.batches b).filter fun x => x.consumer = c ∧ x.acked) = (mark (cur.of c) b).filter (·.acked) := by
    rw [← of_mark, List.filter_filter]
    simp [and_comm]
  unfold chain
  simp only [hfilter]
  exact follow_eq_takeWhile ((linked_mark b).2 hl) hspan (le_rfl)

/-! ## The invariant -/

structure Chained (cur : Cursors) : Prop where
  linked : ∀ s ∈ cur.subs, Linked (cur.of s.consumer) s.lastTick s.nextTick
  head : ∀ c b, (cur.of c).head? = some b → b.acked = false

theorem Chained.of_eq_nil (h : Chained cur) (hacked : cur.allAcked c) : cur.of c = [] := by
  cases hof : cur.of c with
  | nil => rfl
  | cons b l =>
    have hmem : b ∈ cur.of c := by
      rw [hof]
      exact mem_cons_self
    obtain ⟨hb, hc⟩ := mem_filter.1 hmem
    have hhead := h.head c b (by rw [hof]; rfl)
    rw [hacked b hb (by simpa using hc)] at hhead
    cases hhead

theorem Chained.catchUp (h : Chained w.cur) : CatchUp w := by
  intro s hs hacked
  have hnil := h.of_eq_nil hacked
  have hl := h.linked s hs
  rw [hnil] at hl
  refine ⟨hl, fun b hb hc => ?_⟩
  have hmem : b ∈ w.cur.of s.consumer := mem_filter.2 ⟨hb, by simpa using hc⟩
  rw [hnil] at hmem
  cases hmem

theorem set_ne_idle {i : Nat} {t t' : Tx} (hi : w.txs[i]? = some t) (ht : t' ≠ .idle) : some (w.set i t') ≠ some (w.set i .idle) := by
  intro he
  have hlt := (List.getElem?_eq_some_iff.1 hi).1
  have htxs : w.txs.set i t' = w.txs.set i .idle := congrArg World.txs (Option.some.inj he)
  have hat := congrArg (·[i]?) htxs
  simp only [getElem?_set_self hlt, Option.some.injEq] at hat
  exact ht hat

theorem Chained.unhindered (h : Chained w.cur) (hw : Held w) : Unhindered w := by
  refine ⟨fun i r hi hacked => ?_, fun b hb => ?_⟩
  · obtain ⟨s, hs, hlast, -⟩ := (hw.txs _ (mem_of_getElem? hi)).row
    have hnext : ¬ (r.member = 0 ∧ r.lastSeen < s.nextTick) := by
      cases hf : r.fresh with
      | true =>
        cases (if_pos hf).symm.trans hs
        exact fun hlt => Nat.lt_irrefl _ hlt.2
      | false =>
        obtain ⟨hmem, hc⟩ := mem_of_sub? ((if_neg (by simp [hf])).symm.trans hs)
        have heq := (h.catchUp s hmem (hc ▸ hacked)).1
        omega
    simp only [receiveStep, hs, if_neg hnext]
    split <;> exact set_ne_idle hi (by simp)
  · by_contra hall
    have hacked : w.cur.allAcked b.consumer := fun b' hb' hc => by
      by_contra hno
      exact hall ⟨b', hb', hc, by simpa using hno⟩
    have hmem : b ∈ w.cur.of b.consumer := mem_filter.2 ⟨hb, by simp⟩
    rw [h.of_eq_nil hacked] at hmem
    cases hmem

theorem Chained.same (h : Chained cur) (hs : cur'.subs = cur.subs) (hb : cur'.batches = cur.batches) : Chained cur' := by
  have hof : ∀ c, cur'.of c = cur.of c := fun c => by rw [of, hb]; rfl
  refine ⟨fun s hs' => ?_, fun c b hb' => ?_⟩
  · rw [hof]
    exact h.linked s (hs ▸ hs')
  · rw [hof] at hb'
    exact h.head c b hb'

theorem of_eq_nil_of_new (h : cur.Ok) (hnew : cur.sub? c = none) : cur.of c = [] := by
  refine filter_eq_nil_iff.2 fun b hb => ?_
  obtain ⟨s, hs, hc, -⟩ := h.owner b hb
  have hne := sub?_eq_none.1 hnew s hs
  simp only [decide_eq_true_eq]
  exact fun hbc => hne (hc.trans hbc)

theorem Chained.enter (h : Chained cur) (hcur : cur.Ok) (hnew : cur.sub? c = none) :
    Chained { cur with subs := cur.subs ++ [⟨c, tick, tick⟩] } := by
  refine ⟨Conc.forall_push h.linked ?_, h.head⟩
  show Linked (cur.of c) tick tick
  rw [of_eq_nil_of_new hcur hnew]
  rfl

theorem Chained.enrol {p : Place} (h : Chained w.cur) (hcur : w.cur.Ok) (hok : r.Ok w.cur p) : Chained (w.enrol r).cur := by
  unfold World.enrol
  split
  · next hf => exact h.enter hcur (hok.new hf)
  · exact h

theorem enrol_batches (w : World) (r : Receive) : (w.enrol r).cur.batches = w.cur.batches := by
  unfold World.enrol
  split <;> rfl

theorem of_push {b : Batch} (h : cur'.batches = cur.batches ++ [b]) (c : Nat) :
    cur'.of c = if b.consumer = c then cur.of c ++ [b] else cur.of c := by
  unfold of
  rw [h, filter_append, filter_singleton]
  by_cases hc : b.consumer = c <;> simp [hc]

theorem chained_settle {startAt endAt : Nat} {own : Option Tick} {seqs : List Nat} (hw : Held w)
    (h : Chained w.cur) (hi : w.txs[i]? = some (.receive r (.collected startAt endAt own seqs)))
    (ho : seqs = [] → r.member = 0 ∨ w.cur.allAcked r.consumer) : Chained (w.settle i r startAt endAt own seqs).cur := by
  have hok : r.Ok w.cur (.collected startAt endAt own seqs) := hw.txs _ (mem_of_getElem? hi)
  have hv := h.enrol hw.cur hok
  obtain ⟨hcur, -, -, s, hs, hc, hlast, hstart, -⟩ := enrol_spec hw hok
  have hspan : ∀ b ∈ (w.enrol r).cur.of r.consumer, b.startTick < b.endTick := fun b hb => (hcur.span b (mem_filter.1 hb).1).1
  have hlinked := hv.linked s hs
  rw [hc] at hlinked
  -- the row of another consumer stays, and so do its batches
  have hrows : ∀ x ∈ (w.enrol r).cur.subs, x.consumer = r.consumer → x = s := fun x hx hxc => hcur.inj x hx s hs (hxc.trans hc.symm)
  by_cases hseqs : seqs = []
  · have hbatches : (w.settle i r startAt endAt own seqs).cur.batches = (w.enrol r).cur.batches := by
      simp [World.settle, hseqs]
    have hof : ∀ c, (w.settle i r startAt endAt own seqs).cur.of c = (w.enrol r).cur.of c := fun c => by
      rw [of, hbatches]
      rfl
    have hcond : r.member = 0 ∨ w.cur.allAcked r.consumer := ho hseqs
    -- nothing lies between the two cursors
    have hnil : (w.enrol r).cur.of r.consumer = [] := by
      rcases hcond with hm | hacked
      · by_contra hne
        have hlt := hlinked.lt hspan hne
        have hn := hok.normal hm startAt rfl
        omega
      · refine hv.of_eq_nil fun b hb => ?_
        rw [enrol_batches] at hb
        exact hacked b hb
    refine ⟨fun x hx => ?_, fun c b hb => hv.head c b (hof c ▸ hb)⟩
    obtain ⟨x₀, hx₀, rfl⟩ := mem_map.1 hx
    rw [hof, advance_consumer]
    by_cases hxc : x₀.consumer = r.consumer
    · rw [hxc, hnil]
      simp only [World.advance, hxc, if_true, hseqs, true_and, if_pos hcond]
      rfl
    · rw [advance_other hxc]
      exact hv.linked x₀ hx₀
  · let b : Batch := ⟨(w.enrol r).cur.batchSeq, r.consumer, r.member, startAt, endAt, false, seqs⟩
    have hbatches : (w.settle i r startAt endAt own seqs).cur.batches = (w.enrol r).cur.batches ++ [b] := by
      simp [World.settle, hseqs, b]
    refine ⟨fun x hx => ?_, fun c x hx => ?_⟩
    · rw [settle_subs] at hx
      obtain ⟨x₀, hx₀, rfl⟩ := mem_map.1 hx
      rw [of_push hbatches, advance_consumer]
      by_cases hxc : x₀.consumer = r.consumer
      · cases hrows x₀ hx₀ hxc
        rw [if_pos hxc.symm, hxc]
        simp only [World.advance, hxc, if_true, hseqs, false_and, if_false]
        exact linked_append.2 ⟨s.nextTick, hlinked, hstart, rfl⟩
      · rw [if_neg fun hb => hxc hb.symm, advance_other hxc]
        exact hv.linked x₀ hx₀
    · rw [of_push hbatches] at hx
      split at hx
      · rw [head?_append] at hx
        cases hhead : ((w.enrol r).cur.of c).head? with
        | none =>
          rw [hhead] at hx
          cases hx
          rfl
        | some y =>
          rw [hhead] at hx
          cases hx
          exact hv.head c _ hhead
      · exact hv.head c x hx

theorem head_dropWhile {α : Type} {p : α → Bool} {l : List α} {x : α} (h : (l.dropWhile p).head? = some x) : p x = false := by
  have hnot := head?_dropWhile_not p l
  rw [h] at hnot
  simpa using hnot

theorem of_ackEnd (c' : Nat) : (w.ackEnd i b c chain).cur.of c' = (mark (w.cur.of c') b).filter (·.id ∉ chain.map (·.id)) := by
  rw [← of_mark]
  simp only [of, World.ackEnd, List.filter_filter]
  refine filter_congr fun x _ => ?_
  exact Bool.and_comm _ _

theorem of_ackEnd_other (hw : Held w) (hi : w.txs[i]? = some (.chained b c base chain))
    (ho : ∀ x ∈ chain, ∃ y ∈ w.cur.batches, y.id = x.id ∧ y.consumer = c) {c' : Nat} (hc : c' ≠ c) :
    (w.ackEnd i b c chain).cur.of c' = w.cur.of c' := by
  have hok : (_ ∧ _) ∧ _ := hw.txs _ (mem_of_getElem? hi)
  have hof : ∀ x ∈ w.cur.of c', x ∈ w.cur.batches ∧ x.consumer = c' := fun x hx => by
    simpa [of] using hx
  have hmark : mark (w.cur.of c') b = w.cur.of c' := by
    unfold mark
    rw [map_congr_left, map_id]
    intro x hx
    obtain ⟨hmem, hxc⟩ := hof x hx
    exact if_neg fun hid => hc (hxc.symm.trans (hok.1.2 x hmem hid))
  rw [of_ackEnd, hmark]
  refine filter_eq_self.2 fun x hx => ?_
  obtain ⟨hmem, hxc⟩ := hof x hx
  simp only [mem_map, decide_eq_true_eq]
  rintro ⟨y, hy, hid⟩
  obtain ⟨z, hz, hzid, hzc⟩ := ho y hy
  rw [hw.cur.batch_eq hmem hz (hid.symm.trans hzid.symm)] at hxc
  exact hc (hxc.symm.trans hzc)

theorem chained_ackEnd (hw : Held w) (h : Chained w.cur)
    (hi : w.txs[i]? = some (.chained b c base chain)) (ho : ∀ s ∈ w.cur.sub? c, chain = w.cur.chain b c s.lastTick) :
    Chained (w.ackEnd i b c chain).cur := by
  have hok : (_ ∧ _) ∧ _ := hw.txs _ (mem_of_getElem? hi)
  cases hsub : w.cur.sub? c with
  | none =>
    -- an owner without a row has no batches, so there is nothing to ack
    have hchain : chain = [] := by
      refine eq_nil_iff_forall_not_mem.2 fun x hx => ?_
      obtain ⟨-, -, s, hs, hc, -⟩ := hok.2 x hx
      exact sub?_eq_none.1 hsub s hs hc
    subst hchain
    have hof : ∀ c', (w.ackEnd i b c []).cur.of c' = w.cur.of c' := by
      intro c'
      by_cases hc : c' = c
      · rw [hc, of_ackEnd, of_eq_nil_of_new hw.cur hsub]
        rfl
      · exact of_ackEnd_other hw hi nofun hc
    exact ⟨fun s hs => hof _ ▸ h.linked s hs, fun c' x hx => h.head c' x (hof c' ▸ hx)⟩
  | some s =>
    obtain ⟨hs, hc⟩ := mem_of_sub? hsub
    have hlinked := h.linked s hs
    rw [hc] at hlinked
    have hchain := ho s hsub
    have hother : ∀ c', c' ≠ c → (w.ackEnd i b c chain).cur.of c' = w.cur.of c' := by
      refine fun c' => of_ackEnd_other hw hi fun x hx => ?_
      rw [hchain] at hx
      obtain ⟨-, -, y, hy, hid, hyc, -⟩ := mem_chain hw.cur hx
      exact ⟨y, hy, hid, hyc⟩
    rw [chain_eq_takeWhile hw.cur hlinked] at hchain
    -- the front of the batches goes, and the rest starts where it ended
    let rest := (mark (w.cur.of c) b).dropWhile (·.acked)
    have hsplit : mark (w.cur.of c) b = chain ++ rest := by
      rw [hchain]
      exact takeWhile_append_dropWhile.symm
    have hids : ((chain ++ rest).map (·.id)).Nodup := by
      rw [← hsplit, mark_ids]
      exact hw.cur.nodup.sublist (filter_sublist.map _)
    have hself : (w.ackEnd i b c chain).cur.of c = rest := by
      rw [of_ackEnd, hsplit, filter_front hids]
    have hmarked := (linked_mark b).2 hlinked
    rw [hsplit] at hmarked
    obtain ⟨m, hfront, hrest⟩ := linked_append.1 hmarked
    have hspan : ∀ x ∈ chain ++ rest, x.startTick < x.endTick := by
      intro x hx
      rw [← hsplit] at hx
      obtain ⟨y, hy, -, -, hstart, hend, -⟩ := mem_mark hx
      rw [← hstart, ← hend]
      exact (hw.cur.span y (mem_filter.1 hy).1).1
    refine ⟨fun x hx => ?_, fun c' x hx => ?_⟩
    · by_cases hne : chain = []
      · have hx : x ∈ w.cur.subs := by simpa [World.ackEnd, hne] using hx
        by_cases hxc : x.consumer = c
        · cases hw.cur.inj x hx s hs (hxc.trans hc.symm)
          rw [hxc, hself]
          rw [hne] at hfront
          rw [show s.lastTick = m from hfront]
          exact hrest
        · rw [hother _ hxc]
          exact h.linked x hx
      · simp only [World.ackEnd, if_neg hne] at hx
        obtain ⟨y, hy, rfl⟩ := mem_map.1 hx
        by_cases hyc : y.consumer = c
        · cases hw.cur.inj y hy s hs (hyc.trans hc.symm)
          have hm := hfront.chainEnd_eq (fun x hx => hspan x (mem_append_left _ hx)) hne
          have hle := hrest.le fun x hx => hspan x (mem_append_right _ hx)
          simp only [if_pos hyc, hm, Nat.max_eq_left hle]
          rw [hyc, hself]
          exact hrest
        · simp only [if_neg hyc]
          rw [hother _ hyc]
          exact h.linked y hy
    · by_cases hc' : c' = c
      · rw [hc', hself] at hx
        exact head_dropWhile hx
      · rw [hother c' hc'] at hx
        exact h.head c' x hx

theorem chained_next {w' : World} {a : Act} (hw : Held w) (h : Chained w.cur) (ho : Orderly w a) (hs : Step w a w') : Chained w'.cur := by
  cases hs with
  | enter i c target hi hsub hfree => exact h.enter hw.cur hsub
  | enrol i r p hi => exact h.enrol hw.cur (hw.txs _ (mem_of_getElem? hi))
  | settle i r startAt endAt own seqs hi => exact chained_settle hw h hi (ho _ hi)
  | ackEnd i b c base chain hi hfree => exact chained_ackEnd hw h hi (ho _ hi)
  | _ => exact h.same rfl rfl

/-- In every run in which every empty cooperative receive and every ack that ends is orderly, a
consumer with no active batch has its cursors together and no batch row left; it hinders neither a
normal receive nor a rotation. -/
theorem cursor_catches_up (maxRetries retention : Nat) (acts : List Act) (w : World)
    (hok : machine.Allowed Orderly (World.init maxRetries retention) acts)
    (hrun : machine.run (World.init maxRetries retention) acts = some w) : CatchUp w ∧ Unhindered w := by
  have hinv : Held w ∧ Chained w.cur := by
    have hstep : ∀ v a v', Held v ∧ Chained v.cur → Orderly v a → machine.next v a = some v' → Held v' ∧ Chained v'.cur := by
      intro v a v' ⟨hv, hc⟩ ho hn
      have hs := step_of_next hn
      exact ⟨held_next hv hs, chained_next hv hc ho hs⟩
    exact Conc.Machine.invariant hstep ⟨held_init _ _, nofun, nofun⟩ hok hrun
  exact ⟨hinv.2.catchUp, hinv.2.unhindered hinv.1⟩

/-- Two members receive one batch each and ack them the other way round. -/
def ackedOutOfOrder : List Act :=
  [.connect] ++ call 0 2 (.subscribe 1 none) ++ call 0 2 (.append [1]) ++ call 0 8 (.receive 1 1 10) ++ call 0 2 (.append [2]) ++
    call 0 8 (.receive 1 2 10) ++ call 0 2 (.ack 2) ++ call 0 2 (.ack 1)

theorem both_members_acked : ∃ w, machine.run (World.init 5 10) ackedOutOfOrder = some w ∧ w.cur.subs = [⟨1, 3, 3⟩] ∧ CatchUp w := by
  have hrun : ((machine.runIf Orderly (World.init 5 10) ackedOutOfOrder).map (·.cur.subs)) = some [⟨1, 3, 3⟩] := by decide +kernel
  obtain ⟨w, hw, hsubs⟩ := Option.map_eq_some_iff.1 hrun
  obtain ⟨hok, hw⟩ := Conc.Machine.runIf_spec hw
  exact ⟨w, hw, hsubs, (cursor_catches_up 5 10 _ w hok hw).1⟩

/-- Consumers 1 and 2 make a tick each over one event. While the first member of consumer 1 has its
batch, the second finds nothing between the ticks; then the batch is acked. -/
def emptyReceive : List Act :=
  [.connect, .connect] ++ call 0 2 (.subscribe 1 none) ++ call 0 2 (.subscribe 2 none) ++ call 0 2 (.append [1]) ++
    call 0 6 (.receive 1 1 10) ++ call 1 8 (.receive 2 0 10) ++ [.run 0, .run 0] ++ call 0 5 (.receive 1 2 10) ++ call 0 2 (.ack 2)

/-- The ack leaves `last_tick` one tick behind `next_tick`. -/
theorem empty_receive_leaves_gap : ¬ ∀ (maxRetries retention : Nat) (acts : List Act) (w : World),
      machine.run (World.init maxRetries retention) acts = some w → CatchUp w := by
  intro hclaim
  have hrun : ((machine.run (World.init 5 10) emptyReceive).map fun w => decide (CatchUp w)) = some false := by decide +kernel
  obtain ⟨w, hw, hcatch⟩ := Option.map_eq_some_iff.1 hrun
  exact of_decide_eq_false hcatch (hclaim 5 10 _ w hw)

end Pgvs3.Stream
