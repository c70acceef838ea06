import Pgvs3.Queue.AtMostOnce
/-!
# What becomes of a nacked message

`stream_nack` (`schema.sql:1058-1098`) sets a message of an active batch aside, as a row of
`stream_retry_events` or of `stream_dead_letters`; `stream_process_retries` (`1101-1129`) moves the
due rows into the stream as new events. `Ledger` keeps account of both. Both tables are unique in
the batch and the event id. An event id names one message only if the client has not used it twice,
and a retry row is gone once it has been moved, while the batch is still active: a nack that is
repeated then makes a second one (`repeated_nack_retries_twice`). `Accountable` leaves these out.
-/

namespace Pgvs3.Stream

open List Option Conc

def World.message (w : World) (batch eventId : Nat) : Option Event :=
  (w.cur.batches.find? (·.id = batch)).bind fun b => w.seg.events.find? fun e => e.seq ∈ b.seqs ∧ e.eventId = eventId

structure Ledger where
  world : World
  /-- Every nack that has succeeded: the batch and the message. -/
  nacks : List (Nat × Event)
  /-- Every retry row that was moved, with the event that was inserted for it. -/
  moved : List (Retry × Event)

def Retry.of (batch eventId : Nat) (r : Retry) : Bool := r.batch = batch ∧ r.eventId = eventId

def DeadLetter.of (batch eventId : Nat) (d : DeadLetter) : Bool := d.batch = batch ∧ d.eventId = eventId

namespace Ledger

variable (s : Ledger)

def note : Act → List (Nat × Event)
  | .nack _ batch eventId _ => s.nacks ++ (s.world.message batch eventId).toList.map (batch, ·)
  | _ => s.nacks

def move : Act → List (Retry × Event)
  | .run i =>
    match s.world.txs[i]? with
    | some (.written _ rows ids) => s.moved ++ (s.world.seg.retries.filter (·.id ∈ ids)).zip rows
    | _ => s.moved
  | _ => s.moved

def next (a : Act) : Option Ledger := (Stream.next s.world a).map fun w' => ⟨w', s.note a, s.move a⟩

def init (maxRetries retention : Nat) : Ledger := ⟨.init maxRetries retention, [], []⟩

/-- The retry counts of all that has become of a message: what waits to be retried, what came back,
and dead letters. -/
def outcomes (batch eventId : Nat) : List Nat :=
  (s.world.seg.retries.filter (·.of batch eventId)).map (·.retryCount) ++ (s.moved.filter (·.1.of batch eventId)).map (·.2.retryCount) ++
    (s.world.seg.dead.filter (·.of batch eventId)).map (·.retryCount)

/-- The batch has one message with the id, and no retry of it has come back yet. -/
def Accountable : Act → Prop
  | .nack _ batch eventId _ =>
    (∀ b ∈ s.world.cur.batches, b.id = batch → ∀ e ∈ s.world.hist.log, e.seq ∈ b.seqs → e.eventId = eventId →
      ∀ e' ∈ s.world.hist.log, e'.seq ∈ b.seqs → e'.eventId = eventId → e' = e) ∧
      ∀ x ∈ s.moved, x.1.of batch eventId = false
  | _ => True

instance (a : Act) : Decidable (s.Accountable a) := by
  unfold Ledger.Accountable
  split <;> infer_instance

end Ledger

abbrev ledger : Machine := ⟨Ledger, Act, Ledger.next⟩

/-- One outcome for every nacked message, which counts one retry more, and none for the others. -/
structure Tallied (nacks : List (Nat × Event)) (out : Nat → Nat → List Nat) : Prop where
  once : ∀ b e, (b, e) ∈ nacks → out b e.eventId = [e.retryCount + 1]
  never : ∀ b id, (∀ e, (b, e) ∈ nacks → e.eventId ≠ id) → out b id = []

/-- Every nacked message has one outcome, the others of its batch have none, and what comes back has
the message's id. -/
structure Accounted (s : Ledger) : Prop where
  tally : Tallied s.nacks s.outcomes
  others : ∀ x ∈ s.world.cur.batches, ∀ e ∈ s.world.hist.log, e.seq ∈ x.seqs → (x.id, e) ∉ s.nacks → s.outcomes x.id e.eventId = []
  names : ∀ x ∈ s.moved, x.2.eventId = x.1.eventId

/-! ## Tallies -/

section Tally

variable {nacks : List (Nat × Event)} {out out' : Nat → Nat → List Nat} {batch : Nat} {e : Event}

theorem Tallied.perm (h : Tallied nacks out) (hout : ∀ b id, (out' b id).Perm (out b id)) : Tallied nacks out' := by
  refine ⟨fun b e he => ?_, fun b id hnot => ?_⟩
  · have hp := hout b e.eventId
    rw [h.once b e he] at hp
    exact perm_singleton.1 hp
  · have hp := hout b id
    rw [h.never b id hnot] at hp
    exact perm_nil.1 hp

theorem Tallied.again (h : Tallied nacks out) (hkey : out batch e.eventId = [e.retryCount + 1]) :
    Tallied (nacks ++ [(batch, e)]) out := by
  refine ⟨fun b e' he => ?_, fun b id hnot => h.never b id fun e' he => hnot e' (mem_append_left _ he)⟩
  rcases mem_append.1 he with he | he
  · exact h.once b e' he
  · cases mem_singleton.1 he
    exact hkey

theorem Tallied.first (h : Tallied nacks out) (hnew : ∀ e', (batch, e') ∈ nacks → e'.eventId ≠ e.eventId)
    (hkey : (out' batch e.eventId).Perm (out batch e.eventId ++ [e.retryCount + 1]))
    (hother : ∀ b id, ¬ (b = batch ∧ id = e.eventId) → out' b id = out b id) : Tallied (nacks ++ [(batch, e)]) out' := by
  have hone : out' batch e.eventId = [e.retryCount + 1] := by
    rw [h.never batch e.eventId hnew] at hkey
    exact perm_singleton.1 hkey
  refine ⟨fun b e' he => ?_, fun b id hnot => ?_⟩
  · rcases mem_append.1 he with he | he
    · rw [hother b e'.eventId fun heq => hnew e' (heq.1 ▸ he) heq.2]
      exact h.once b e' he
    · cases mem_singleton.1 he
      exact hone
  · have hne : ¬ (b = batch ∧ id = e.eventId) := by
      rintro ⟨rfl, rfl⟩
      exact hnot e (mem_append_right _ (mem_singleton.2 rfl)) rfl
    rw [hother b id hne]
    exact h.never b id fun e' he => hnot e' (mem_append_left _ he)

end Tally

/-! ## The invariant -/

def Retry.key (r : Retry) : Nat × Nat := (r.eventId, r.retryCount)

def Event.key (e : Event) : Nat × Nat := (e.eventId, e.retryCount)

/-- The rows of the tables, and those that calls have deleted and not committed. -/
structure Rows (w : World) : Prop where
  ids : ∀ r ∈ w.seg.retries, r.id < w.seg.retrySeq
  drawn : ∀ t ∈ w.txs, ∀ k ∈ t.moved, k < w.seg.retrySeq
  apart : ∀ (i j : Nat) (t u : Tx), w.txs[i]? = some t → w.txs[j]? = some u → ∀ k ∈ t.moved, k ∈ u.moved → i = j
  written : ∀ x rows ids, Tx.written x rows ids ∈ w.txs → ids ≠ [] →
    rows.map Event.key = (w.seg.retries.filter (·.id ∈ ids)).map Retry.key
  retry : ∀ r ∈ w.seg.retries, r.retryCount ≤ w.maxRetries
  dead : ∀ d ∈ w.seg.dead, w.maxRetries < d.retryCount

def Tx.collected : Tx → List Nat
  | .receive _ (.collected _ _ _ seqs) => seqs
  | _ => []

/-- Batches are made of committed events. -/
structure Logged (w : World) : Prop where
  batches : ∀ x ∈ w.cur.batches, ∀ q ∈ x.seqs, ∃ e ∈ w.hist.log, e.seq = q
  txs : ∀ t ∈ w.txs, ∀ q ∈ t.collected, ∃ e ∈ w.hist.log, e.seq = q

/-- The event is the only one of its id in the batch. -/
def World.Only (w : World) (batch : Nat) (e : Event) : Prop :=
  ∀ x ∈ w.cur.batches, x.id = batch → e.seq ∈ x.seqs ∧ ∀ e' ∈ w.hist.log, e'.seq ∈ x.seqs → e'.eventId = e.eventId → e' = e

structure Books (s : Ledger) : Prop where
  rows : Rows s.world
  moved : ∀ x ∈ s.moved, x.2.eventId = x.1.eventId ∧ x.2.retryCount ≤ s.world.maxRetries
  nacked : ∀ b e, (b, e) ∈ s.nacks → b < s.world.cur.batchSeq ∧ e ∈ s.world.hist.log ∧ s.world.Only b e
  tally : Tallied s.nacks s.outcomes

/-- What a step leaves to the batches that were there. -/
structure Follows (w w' : World) : Prop where
  maxRetries : w'.maxRetries = w.maxRetries
  batchSeq : w.cur.batchSeq ≤ w'.cur.batchSeq
  log : ∀ e ∈ w.hist.log, e ∈ w'.hist.log
  fresh : ∀ e ∈ w'.hist.log, e ∈ w.hist.log ∨ ∃ t ∈ w.txs, e ∈ t.rows
  batches : ∀ x ∈ w'.cur.batches, (∃ y ∈ w.cur.batches, y.id = x.id ∧ y.seqs = x.seqs) ∨
    (w.cur.batchSeq ≤ x.id ∧ ∃ t ∈ w.txs, x.seqs = t.collected)
  txs : ∀ t ∈ w'.txs, t ∈ w.txs ∨ ∀ q ∈ t.collected, ∃ e ∈ w.seg.events, e.seq = q

theorem Follows.logged {w w' : World} (hf : Follows w w') (hg : Segs w) (h : Logged w) : Logged w' := by
  have hkeep : ∀ q, (∃ e ∈ w.hist.log, e.seq = q) → ∃ e ∈ w'.hist.log, e.seq = q := fun q ⟨e, he, heq⟩ => ⟨e, hf.log e he, heq⟩
  refine ⟨fun x hx q hq => hkeep q ?_, fun t ht q hq => hkeep q ?_⟩
  · rcases hf.batches x hx with ⟨y, hy, -, hseqs⟩ | ⟨-, t, ht, hseqs⟩
    · exact h.batches y hy q (hseqs ▸ hq)
    · exact h.txs t ht q (hseqs ▸ hq)
  · rcases hf.txs t ht with ht | hcoll
    · exact h.txs t ht q hq
    · obtain ⟨e, he, heq⟩ := hcoll q hq
      exact ⟨e, hg.logged e he, heq⟩

variable {b i x began eventId secs batch id : Nat} {w w' : World} {t t' : Tx} {a : Act} {s : Ledger} {rows : List Event} {ids : List Nat}

theorem Follows.nacked (hf : Follows w w') (hq : Seqs w) (hl : Logged w) {e : Event}
    (h : b < w.cur.batchSeq ∧ e ∈ w.hist.log ∧ w.Only b e) : b < w'.cur.batchSeq ∧ e ∈ w'.hist.log ∧ w'.Only b e := by
  obtain ⟨hlt, he, honly⟩ := h
  refine ⟨Nat.lt_of_lt_of_le hlt hf.batchSeq, hf.log e he, fun x hx hid => ?_⟩
  rcases hf.batches x hx with ⟨y, hy, hyid, hseqs⟩ | ⟨hnew, -⟩
  · rw [← hseqs]
    obtain ⟨hmem, hone⟩ := honly y hy (hyid.trans hid)
    refine ⟨hmem, fun e' he' hseq heid => ?_⟩
    rcases hf.fresh e' he' with he' | ⟨t, ht, hrow⟩
    · exact hone e' he' hseq heid
    · -- the number of a new event is not in an old batch
      obtain ⟨e'', hlog, heq⟩ := hl.batches y hy _ hseq
      exact absurd heq ((hq.rows t ht e' hrow).2 e'' hlog)
  · rw [hid] at hnew
    exact absurd hlt (Nat.not_lt.2 hnew)

theorem follows_of_same (hmax : w'.maxRetries = w.maxRetries) (hseq : w'.cur.batchSeq = w.cur.batchSeq)
    (hlog : w'.hist.log = w.hist.log) (hbatches : w'.cur.batches = w.cur.batches)
    (htxs : ∀ t ∈ w'.txs, t ∈ w.txs ∨ ∀ q ∈ t.collected, ∃ e ∈ w.seg.events, e.seq = q) : Follows w w' :=
  ⟨hmax, Nat.le_of_eq hseq.symm, fun _ he => hlog.symm ▸ he, fun _ he => .inl (hlog ▸ he),
    fun x hx => .inl ⟨x, hbatches ▸ hx, rfl, rfl⟩, htxs⟩

theorem enrol_batchSeq (w : World) (r : Receive) : (w.enrol r).cur.batches = w.cur.batches ∧ (w.enrol r).cur.batchSeq = w.cur.batchSeq ∧
    (w.enrol r).maxRetries = w.maxRetries := by
  unfold World.enrol
  split <;> exact ⟨rfl, rfl, rfl⟩

theorem Stage.found (hs : Stage w t t') : ∀ q ∈ t'.collected, ∃ e ∈ w.seg.events, e.seq = q := by
  cases hs with
  | collected r startAt endAt own =>
    intro q hq
    obtain ⟨e, he, heq⟩ := mem_map.1 hq
    exact ⟨e, (mem_filter.1 he).1, heq⟩
  | _ => exact nofun

theorem mem_set (ht : ∀ q ∈ t.collected, ∃ e ∈ w.seg.events, e.seq = q) :
    ∀ u ∈ w.txs.set i t, u ∈ w.txs ∨ ∀ q ∈ u.collected, ∃ e ∈ w.seg.events, e.seq = q :=
  forall_set (fun _ => .inl) (.inr ht)

theorem follows_settle {r : Receive} {startAt endAt : Nat} {own : Option Tick} {seqs : List Nat}
    (hi : w.txs[i]? = some (.receive r (.collected startAt endAt own seqs))) : Follows w (w.settle i r startAt endAt own seqs) := by
  obtain ⟨hbatches, hseq, hmax⟩ := enrol_batchSeq w r
  have hlog := (enrol_log w r).1
  refine ⟨hmax, ?_, fun _ he => hlog.symm ▸ he, fun _ he => .inl (hlog ▸ he), fun x hx => ?_, ?_⟩
  · show w.cur.batchSeq ≤ if seqs = [] then (w.enrol r).cur.batchSeq else (w.enrol r).cur.batchSeq + 1
    rw [hseq]
    split
    · exact le_rfl
    · exact Nat.le_succ _
  · change x ∈ (if seqs = [] then (w.enrol r).cur.batches else
      (w.enrol r).cur.batches ++ [⟨(w.enrol r).cur.batchSeq, r.consumer, r.member, startAt, endAt, false, seqs⟩]) at hx
    rw [hbatches, hseq] at hx
    split at hx
    · exact .inl ⟨x, hx, rfl, rfl⟩
    · rcases mem_append.1 hx with hx | hx
      · exact .inl ⟨x, hx, rfl, rfl⟩
      · cases mem_singleton.1 hx
        exact .inr ⟨le_rfl, _, mem_of_getElem? hi, rfl⟩
  · rw [settle_txs]
    exact mem_set nofun

theorem step_follows (hs : Step w a w') : Follows w w' := by
  cases hs with
  | connect =>
    exact follows_of_same rfl rfl rfl rfl (forall_push (fun _ => .inl) (.inr nofun))
  | stage a i hi hst => exact follows_of_same rfl rfl rfl rfl (mem_set hst.found)
  | commit i x rows moved hi =>
    refine ⟨rfl, le_rfl, fun _ he => mem_append_left _ he, fun e he => ?_, fun x hx => .inl ⟨x, hx, rfl, rfl⟩, mem_set nofun⟩
    exact (mem_append.1 he).imp_right fun he => ⟨_, mem_of_getElem? hi, he⟩
  | enrol i r p hi =>
    obtain ⟨hbatches, hseq, hmax⟩ := enrol_batchSeq w r
    refine follows_of_same hmax hseq (enrol_log w r).1 hbatches ?_
    show ∀ t ∈ (w.enrol r).txs.set i .idle, _
    rw [enrol_txs]
    exact mem_set nofun
  | settle i r startAt endAt own seqs hi => exact follows_settle hi
  | ackEnd i b c base chain hi hfree =>
    refine ⟨rfl, le_rfl, fun _ he => he, fun _ he => .inl he, fun x hx => ?_, mem_set nofun⟩
    obtain ⟨y, hy, hid, -, -, -, hseqs, -⟩ := mem_mark (mem_filter.1 hx).1
    exact .inl ⟨y, hy, hid, hseqs⟩
  | other | write | enter | newTick | prune => exact follows_of_same rfl rfl rfl rfl (mem_set nofun)
  | _ => exact follows_of_same rfl rfl rfl rfl fun _ ht => .inl ht

/-! ## Steps that leave the retry rows -/

theorem Rows.frame (h : Rows w) (hretries : w'.seg.retries = w.seg.retries) (hseq : w'.seg.retrySeq = w.seg.retrySeq)
    (hdead : w'.seg.dead = w.seg.dead) (hmax : w'.maxRetries = w.maxRetries)
    (htxs : ∀ (j : Nat) (t : Tx), w'.txs[j]? = some t → t.moved = [] ∨ w.txs[j]? = some t) : Rows w' := by
  have hmem : ∀ t ∈ w'.txs, t.moved = [] ∨ t ∈ w.txs := by
    intro t ht
    obtain ⟨j, hj⟩ := mem_iff_getElem?.1 ht
    exact (htxs j t hj).imp_right mem_of_getElem?
  refine ⟨?_, fun t ht k hk => ?_, fun i j t u hi hj k hk hk' => ?_, fun x rows ids hw hne => ?_, ?_, ?_⟩
  · rw [hretries, hseq]
    exact h.ids
  · rw [hseq]
    rcases hmem t ht with hnil | ht
    · rw [hnil] at hk
      cases hk
    · exact h.drawn t ht k hk
  · rcases htxs i t hi with hnil | hi
    · rw [hnil] at hk
      cases hk
    · rcases htxs j u hj with hnil | hj
      · rw [hnil] at hk'
        cases hk'
      · exact h.apart i j t u hi hj k hk hk'
  · rw [hretries]
    rcases hmem _ hw with hnil | hw
    · exact absurd hnil hne
    · exact h.written x rows ids hw hne
  · rw [hretries, hmax]
    exact h.retry
  · rw [hdead, hmax]
    exact h.dead

theorem Rows.set (h : Rows w) (hseg : w'.seg = w.seg) (hmax : w'.maxRetries = w.maxRetries)
    (htxs : w'.txs = w.txs.set i t) (ht : t.moved = []) : Rows w' := by
  refine h.frame (by rw [hseg]) (by rw [hseg]) (by rw [hseg]) hmax fun j u hj => ?_
  rw [htxs] at hj
  rcases getElem?_set_cases hj with ⟨-, rfl⟩ | ⟨-, hj⟩
  · exact .inl ht
  · exact .inr hj

theorem Stage.moved (hs : Stage w t t') : t'.moved = [] := by
  cases hs <;> rfl

/-! ## Retries -/

theorem rows_write {segment : Nat} {rows : List (Nat × Nat)} {moved : List Nat} (h : Rows w)
    (ht : moved = [] ∨ ∃ picked : List Nat, (∀ u ∈ w.txs, ∀ k ∈ picked, k ∉ u.moved) ∧
      rows = (w.seg.retries.filter (·.id ∈ picked)).map (fun r => (r.eventId, r.retryCount)) ∧
      moved = (w.seg.retries.filter (·.id ∈ picked)).map (·.id)) : Rows (w.write i segment rows moved) := by
  -- what the call deletes is there, and nobody else has deleted it
  have hnew : ∀ k ∈ moved, k < w.seg.retrySeq ∧ ∀ u ∈ w.txs, k ∉ u.moved := by
    intro k hk
    rcases ht with rfl | ⟨picked, hfree, -, rfl⟩
    · cases hk
    · obtain ⟨r, hr, rfl⟩ := mem_map.1 hk
      obtain ⟨hr, hp⟩ := mem_filter.1 hr
      have hp : r.id ∈ picked := by simpa using hp
      exact ⟨h.ids r hr, fun u hu => hfree u hu r.id hp⟩
  refine ⟨h.ids, forall_set h.drawn fun k hk => (hnew k hk).1, fun j l t u hj hl k hk hk' => ?_, fun x evs ids hw hne => ?_,
    h.retry, h.dead⟩
  · rcases getElem?_set_cases hj with ⟨rfl, rfl⟩ | ⟨-, hj'⟩
    · rcases getElem?_set_cases hl with ⟨rfl, -⟩ | ⟨-, hl'⟩
      · rfl
      · exact absurd hk' ((hnew k hk).2 u (mem_of_getElem? hl'))
    · rcases getElem?_set_cases hl with ⟨rfl, rfl⟩ | ⟨-, hl'⟩
      · exact absurd hk ((hnew k hk').2 t (mem_of_getElem? hj'))
      · exact h.apart j l t u hj' hl' k hk hk'
  · rcases mem_or_eq_of_mem_set hw with hw | heq
    · exact h.written x evs ids hw hne
    · cases heq
      rcases ht with rfl | ⟨picked, -, rfl, rfl⟩
      · exact absurd rfl hne
      · have hsame : (w.seg.retries.filter fun r => decide (r.id ∈ (w.seg.retries.filter fun r => decide (r.id ∈ picked)).map (·.id))) =
            w.seg.retries.filter fun r => decide (r.id ∈ picked) := by
          refine filter_congr fun r hr => decide_eq_decide.2 ⟨fun hid => ?_, fun hp => ?_⟩
          · obtain ⟨r', hr', heq⟩ := mem_map.1 hid
            have hp : r'.id ∈ picked := by simpa using (mem_filter.1 hr').2
            exact heq ▸ hp
          · exact mem_map.2 ⟨r, mem_filter.2 ⟨hr, by simpa using hp⟩, rfl⟩
        show _ = (w.seg.retries.filter fun r => r.id ∈ (w.seg.retries.filter (·.id ∈ picked)).map (·.id)).map Retry.key
        rw [hsame]
        refine ext_getElem (by simp) fun k _ _ => ?_
        simp [Event.key, Retry.key]

theorem rows_commit (h : Rows w) (hi : w.txs[i]? = some (.written x rows ids)) : Rows (w.commit i rows ids) := by
  have hget : ∀ (j : Nat) (t : Tx), (w.commit i rows ids).txs[j]? = some t → t.moved = [] ∨ (j ≠ i ∧ w.txs[j]? = some t) := by
    intro j t hj
    rcases getElem?_set_cases hj with ⟨-, rfl⟩ | hj
    · exact .inl rfl
    · exact .inr hj
  refine ⟨fun r hr => h.ids r (mem_filter.1 hr).1, fun t ht k hk => ?_, fun j l t u hj hl k hk hk' => ?_,
    fun y evs ids' hw hne => ?_, fun r hr => h.retry r (mem_filter.1 hr).1, h.dead⟩
  · obtain ⟨j, hj⟩ := mem_iff_getElem?.1 ht
    rcases hget j t hj with hnil | ⟨-, hj⟩
    · rw [hnil] at hk
      cases hk
    · exact h.drawn t (mem_of_getElem? hj) k hk
  · rcases hget j t hj with hnil | ⟨-, hj⟩
    · rw [hnil] at hk
      cases hk
    · rcases hget l u hl with hnil | ⟨-, hl⟩
      · rw [hnil] at hk'
        cases hk'
      · exact h.apart j l t u hj hl k hk hk'
  · obtain ⟨j, hj⟩ := mem_iff_getElem?.1 hw
    rcases hget j _ hj with hnil | ⟨hji, hj⟩
    · exact absurd hnil hne
    · rw [h.written y evs ids' (mem_of_getElem? hj) hne]
      -- the rows that the other call has deleted are not among those that go
      show _ = ((w.seg.retries.filter (·.id ∉ ids)).filter (·.id ∈ ids')).map Retry.key
      rw [List.filter_filter]
      congr 1
      refine filter_congr fun r _ => ?_
      by_cases hr : r.id ∈ ids'
      · have hno : r.id ∉ ids := fun hin => hji (h.apart j i _ _ hj hi r.id hr hin)
        simp [hr, hno]
      · simp [hr]

theorem zip_keys {rs : List Retry} {es : List Event} (h : es.map Event.key = rs.map Retry.key) :
    (∀ x ∈ rs.zip es, x.2.key = x.1.key) ∧ ∀ p : Retry → Bool, ((rs.zip es).filter (p ·.1)).map (·.2.retryCount) =
      (rs.filter p).map (·.retryCount) := by
  induction rs generalizing es with
  | nil => exact ⟨nofun, fun _ => rfl⟩
  | cons r rs ih =>
    cases es with
    | nil => cases h
    | cons e es =>
      obtain ⟨hkey, hrest⟩ := List.cons.inj h
      obtain ⟨hall, hcount⟩ := ih hrest
      refine ⟨fun x hx => ?_, fun p => ?_⟩
      · rcases mem_cons.1 hx with rfl | hx
        · exact hkey
        · exact hall x hx
      · have hcnt : e.retryCount = r.retryCount := congrArg Prod.snd hkey
        by_cases hp : p r <;> simp [hp, hcount, hcnt]

theorem books_commit (h : Books s) (hq : Seqs s.world) (hl : Logged s.world) (hi : s.world.txs[i]? = some (.written x rows ids)) :
    Books ⟨s.world.commit i rows ids, s.nacks, s.moved ++ (s.world.seg.retries.filter (·.id ∈ ids)).zip rows⟩ := by
  have hf := step_follows (.commit i x rows ids hi)
  -- an append deletes no row
  have hzip : (∀ y ∈ (s.world.seg.retries.filter (·.id ∈ ids)).zip rows, y.2.key = y.1.key) ∧
      ∀ p : Retry → Bool, (((s.world.seg.retries.filter (·.id ∈ ids)).zip rows).filter (p ·.1)).map (·.2.retryCount) =
        ((s.world.seg.retries.filter (·.id ∈ ids)).filter p).map (·.retryCount) := by
    by_cases hne : ids = []
    · subst hne
      simp
    · exact zip_keys (h.rows.written x rows ids (mem_of_getElem? hi) hne)
  refine ⟨rows_commit h.rows hi, fun y hy => ?_, fun b e he => hf.nacked hq hl (h.nacked b e he), h.tally.perm fun b id => ?_⟩
  · rcases mem_append.1 hy with hy | hy
    · exact h.moved y hy
    · have hkey := hzip.1 y hy
      have hmem : y.1 ∈ s.world.seg.retries := (mem_filter.1 (of_mem_zip hy).1).1
      have hcount : y.2.retryCount = y.1.retryCount := congrArg Prod.snd hkey
      exact ⟨congrArg Prod.fst hkey, hcount ▸ h.rows.retry _ hmem⟩
  · -- each row is where it was or has come back
    have hsplit : ((s.world.seg.retries.filter (·.id ∉ ids)).filter (·.of b id) ++
      (s.world.seg.retries.filter (·.id ∈ ids)).filter (·.of b id)).Perm
        (s.world.seg.retries.filter (·.of b id)) := by
      rw [← filter_append]
      refine List.Perm.filter _ ?_
      have hp := filter_append_perm (fun r : Retry => decide (r.id ∉ ids)) s.world.seg.retries
      simpa using hp
    show (((s.world.seg.retries.filter (·.id ∉ ids)).filter (·.of b id)).map (·.retryCount) ++
      ((s.moved ++ (s.world.seg.retries.filter (·.id ∈ ids)).zip rows).filter (·.1.of b id)).map (·.2.retryCount) ++ _).Perm _
    rw [filter_append, map_append, hzip.2 (·.of b id)]
    refine List.Perm.append_right _ ?_
    refine (perm_append_comm_assoc _ _ _).trans ?_
    rw [← map_append]
    exact ((hsplit.map _).append_left _).trans perm_append_comm

/-! ## Nacks -/

/-- What a nack does: the message is in the batch, and it is set aside unless it is so already. -/
theorem nack_spec (hn : w.nack began batch eventId secs = some w') :
    ∃ b ∈ w.cur.batches, b.id = batch ∧ ∃ e ∈ w.seg.events, e.seq ∈ b.seqs ∧ e.eventId = eventId ∧ w.message batch eventId = some e ∧
      ((w.maxRetries < e.retryCount + 1 ∧ (((∃ d ∈ w.seg.dead, d.of batch eventId = true) ∧ w' = w) ∨
        ((∀ d ∈ w.seg.dead, d.of batch eventId = false) ∧
          w' = { w with seg := { w.seg with dead := w.seg.dead ++ [⟨batch, eventId, e.retryCount + 1⟩] } }))) ∨
      (e.retryCount + 1 ≤ w.maxRetries ∧ (((∃ r ∈ w.seg.retries, r.of batch eventId = true) ∧ w' = w) ∨
        ((∀ r ∈ w.seg.retries, r.of batch eventId = false) ∧ w' = { w with seg := { w.seg with
            retries := w.seg.retries ++ [⟨w.seg.retrySeq, batch, eventId, e.retryCount + 1, began + secs⟩]
            retrySeq := w.seg.retrySeq + 1 } })))) := by
  unfold World.nack at hn
  split at hn
  · next b hb =>
    split at hn
    · cases hn
    · split at hn
      · next e he =>
        have hfound := find?_some he
        simp only [decide_eq_true_eq] at hfound
        have hmsg : w.message batch eventId = some e := by simp only [World.message, hb, bind_some, he]
        refine ⟨b, mem_of_find?_eq_some hb, by simpa using find?_some hb, e, mem_of_find?_eq_some he, hfound.1, hfound.2, hmsg, ?_⟩
        split at hn
        · next hmax =>
          refine .inl ⟨hmax, ?_⟩
          split at hn
          · next hd =>
            cases hn
            exact .inl ⟨by simpa [DeadLetter.of] using hd, rfl⟩
          · next hd =>
            cases hn
            exact .inr ⟨by simpa [DeadLetter.of] using hd, rfl⟩
        · next hmax =>
          refine .inr ⟨Nat.not_lt.1 hmax, ?_⟩
          split at hn
          · cases hn
          · split at hn
            · next hr =>
              cases hn
              exact .inl ⟨by simpa [Retry.of] using hr, rfl⟩
            · next hr =>
              cases hn
              exact .inr ⟨by simpa [Retry.of] using hr, rfl⟩
      · cases hn
  · cases hn

theorem outcome_of_retry {r : Retry} (hr : r ∈ s.world.seg.retries) (hof : r.of b id = true) : r.retryCount ∈ s.outcomes b id :=
  mem_append_left _ (mem_append_left _ (mem_map_of_mem (mem_filter.2 ⟨hr, hof⟩)))

theorem outcome_of_dead {d : DeadLetter} (hd : d ∈ s.world.seg.dead) (hof : d.of b id = true) : d.retryCount ∈ s.outcomes b id :=
  mem_append_right _ (mem_map_of_mem (mem_filter.2 ⟨hd, hof⟩))

/-- An outcome within the limit is a retry that waits or came back; one beyond it is a dead letter.
-/
theorem Books.outcome (h : Books s) {n : Nat} (hn : n ∈ s.outcomes b id) :
    (n ≤ s.world.maxRetries ∧ ((∃ r ∈ s.world.seg.retries, r.of b id = true) ∨ ∃ x ∈ s.moved, x.1.of b id = true)) ∨
      (s.world.maxRetries < n ∧ ∃ d ∈ s.world.seg.dead, d.of b id = true) := by
  rcases mem_append.1 hn with hn | hn
  · rcases mem_append.1 hn with hn | hn
    · obtain ⟨r, hr, rfl⟩ := mem_map.1 hn
      obtain ⟨hr, hof⟩ := mem_filter.1 hr
      exact .inl ⟨h.rows.retry r hr, .inl ⟨r, hr, hof⟩⟩
    · obtain ⟨x, hx, rfl⟩ := mem_map.1 hn
      obtain ⟨hx, hof⟩ := mem_filter.1 hx
      exact .inl ⟨(h.moved x hx).2, .inr ⟨x, hx, hof⟩⟩
  · obtain ⟨d, hd, rfl⟩ := mem_map.1 hn
    obtain ⟨hd, hof⟩ := mem_filter.1 hd
    exact .inr ⟨h.rows.dead d hd, d, hd, hof⟩

theorem books_nack (hw : Held s.world) (hg : Segs s.world) (h : Books s)
    (hok : s.Accountable (.nack began batch eventId secs)) (hn : s.world.nack began batch eventId secs = some w') :
    Books ⟨w', s.note (.nack began batch eventId secs), s.moved⟩ := by
  obtain ⟨b, hb, hid, e, he, hseq, heid, hmsg, hcases⟩ := nack_spec hn
  obtain ⟨hunique, hback⟩ := hok
  have hlog := hg.logged e he
  have hnote : s.note (.nack began batch eventId secs) = s.nacks ++ [(batch, e)] := by
    simp [Ledger.note, hmsg]
  have hnacked : ∀ b' e', (b', e') ∈ s.nacks ++ [(batch, e)] → b' < s.world.cur.batchSeq ∧ e' ∈ s.world.hist.log ∧
      s.world.Only b' e' := by
    intro b' e' hmem
    rcases mem_append.1 hmem with hmem | hmem
    · exact h.nacked b' e' hmem
    · cases mem_singleton.1 hmem
      refine ⟨hid ▸ hw.cur.ids b hb, hlog, fun x hx hxid => ?_⟩
      cases hw.cur.batch_eq hx hb (hxid.trans hid.symm)
      exact ⟨hseq, fun e' he' hseq' heq => hunique b hb hid e hlog hseq heid e' he' hseq' (heq.trans heid)⟩
  -- the message that was nacked before under this id is the same one
  have hbefore : (s.outcomes batch e.eventId = [e.retryCount + 1]) ∨ ∀ e', (batch, e') ∈ s.nacks → e'.eventId ≠ e.eventId := by
    by_cases hex : ∃ e', (batch, e') ∈ s.nacks ∧ e'.eventId = e.eventId
    · obtain ⟨e', hmem, heq⟩ := hex
      obtain ⟨-, hlog', honly⟩ := h.nacked batch e' hmem
      have hsame : e' = e := hunique b hb hid e hlog hseq heid e' hlog' (honly b hb hid).1 (heq.trans heid)
      exact .inl (hsame ▸ h.tally.once batch e' hmem)
    · exact .inr fun e' hmem heq => hex ⟨e', hmem, heq⟩
  rw [hnote]
  subst heid
  have hagain : ∀ {k}, k ∈ s.outcomes batch e.eventId → s.outcomes batch e.eventId = [e.retryCount + 1] := fun hk =>
    hbefore.resolve_right fun hnew => by rw [h.tally.never batch e.eventId hnew] at hk; cases hk
  have hfirst : e.retryCount + 1 ∉ s.outcomes batch e.eventId → ∀ e', (batch, e') ∈ s.nacks → e'.eventId ≠ e.eventId := fun hk =>
    hbefore.resolve_left fun hone => hk (hone ▸ mem_singleton.2 rfl)
  rcases hcases with ⟨hmax, ⟨⟨d, hd, hof⟩, rfl⟩ | ⟨hno, rfl⟩⟩ | ⟨hmax, ⟨⟨r, hr, hof⟩, rfl⟩ | ⟨hno, rfl⟩⟩
  · -- a dead letter that is there already
    exact ⟨h.rows, h.moved, hnacked, h.tally.again (hagain (outcome_of_dead hd hof))⟩
  · -- a new dead letter
    have hnew := hfirst fun hout => by
      rcases h.outcome hout with ⟨hle, -⟩ | ⟨-, d, hd, hof⟩
      · exact absurd hmax (Nat.not_lt.2 hle)
      · cases hof.symm.trans (hno d hd)
    refine ⟨⟨h.rows.ids, h.rows.drawn, h.rows.apart, h.rows.written, h.rows.retry, forall_push h.rows.dead hmax⟩, h.moved,
      hnacked, h.tally.first hnew ?_ fun b' id' hne => ?_⟩
    · simp [Ledger.outcomes, filter_append, DeadLetter.of]
    · have hnot : ¬ (batch = b' ∧ e.eventId = id') := fun heq => hne ⟨heq.1.symm, heq.2.symm⟩
      simp [Ledger.outcomes, filter_append, DeadLetter.of, hnot]
  · -- a retry row that is there already
    exact ⟨h.rows, h.moved, hnacked, h.tally.again (hagain (outcome_of_retry hr hof))⟩
  · -- a new retry row
    have hnew := hfirst fun hout => by
      rcases h.outcome hout with ⟨-, ⟨r, hr, hof⟩ | ⟨x, hx, hof⟩⟩ | ⟨hgt, -⟩
      · cases hof.symm.trans (hno r hr)
      · cases hof.symm.trans (hback x hx)
      · exact absurd hmax (Nat.not_le.2 hgt)
    refine ⟨⟨forall_push (fun r hr => Nat.lt_succ_of_lt (h.rows.ids r hr)) (Nat.lt_succ_self _),
      fun t ht k hk => Nat.lt_succ_of_lt (h.rows.drawn t ht k hk), h.rows.apart, fun x rows ids hwr hne => ?_,
      forall_push h.rows.retry hmax, h.rows.dead⟩, h.moved, hnacked, h.tally.first hnew ?_ fun b' id' hne => ?_⟩
    · -- no call has deleted the new row
      have hfresh : s.world.seg.retrySeq ∉ ids := fun hin => absurd (h.rows.drawn _ hwr _ hin) (Nat.lt_irrefl _)
      rw [h.rows.written x rows ids hwr hne]
      simp [filter_append, hfresh]
    · simp only [Ledger.outcomes, filter_append, Retry.of, map_append, append_assoc]
      refine List.Perm.append_left _ ?_
      simp only [filter_cons, filter_nil, and_self, decide_true, if_true, map_cons, map_nil]
      exact perm_append_comm.trans (by rw [append_assoc])
    · have hnot : ¬ (batch = b' ∧ e.eventId = id') := fun heq => hne ⟨heq.1.symm, heq.2.symm⟩
      simp [Ledger.outcomes, filter_append, Retry.of, hnot]

/-! ## Every run -/

theorem Books.frame (h : Books s) (hq : Seqs s.world) (hl : Logged s.world) (hf : Follows s.world w')
    (hrows : Rows w') (hretries : w'.seg.retries = s.world.seg.retries) (hdead : w'.seg.dead = s.world.seg.dead) :
    Books ⟨w', s.nacks, s.moved⟩ := by
  refine ⟨hrows, fun x hx => ⟨(h.moved x hx).1, hf.maxRetries.symm ▸ (h.moved x hx).2⟩, fun b e he => hf.nacked hq hl (h.nacked b e he),
    h.tally.perm fun b id => ?_⟩
  simp only [Ledger.outcomes, hretries, hdead]
  exact .refl _

theorem rows_step (h : Rows w) (hs : Step w a w') (hnack : ∀ n b e k, a ≠ .nack n b e k)
    (hcommit : ∀ x rows ids, w.call a ≠ some (.written x rows ids)) :
    Rows w' ∧ w'.seg.retries = w.seg.retries ∧ w'.seg.dead = w.seg.dead := by
  cases hs with
  | connect =>
    refine ⟨h.frame rfl rfl rfl rfl fun j t hj => ?_, rfl, rfl⟩
    rcases getElem?_push_cases hj with hj | rfl
    · exact .inr hj
    · exact .inl rfl
  | stage a i hi hst => exact ⟨h.set rfl rfl rfl hst.moved, rfl, rfl⟩
  | write i segment rows moved hi ht =>
    refine ⟨rows_write h ?_, rfl, rfl⟩
    rcases ht with ⟨ids, -, hnil⟩ | ⟨picked, -, hpicked⟩
    · exact .inl hnil
    · exact .inr ⟨picked, hpicked⟩
  | commit i x rows moved hi => exact absurd hi (hcommit x rows moved)
  | enrol i r p hi =>
    have hseg := (enrol_rest w r).2.2
    exact ⟨h.set hseg (enrol_batchSeq w r).2.2 (enrol_set_txs ..) rfl, congrArg _ hseg, congrArg _ hseg⟩
  | settle i r startAt endAt own seqs hi =>
    have hseg := (enrol_rest w r).2.2
    exact ⟨h.set hseg (enrol_batchSeq w r).2.2 (settle_txs ..) rfl, congrArg _ hseg, congrArg _ hseg⟩
  | nack => exact absurd rfl (hnack _ _ _ _)
  | other | enter | newTick | ackEnd | prune => exact ⟨h.set rfl rfl rfl rfl, rfl, rfl⟩
  | _ => exact ⟨h.frame rfl rfl rfl rfl fun _ _ hj => .inr hj, rfl, rfl⟩

structure LedgerInv (s : Ledger) : Prop where
  held : Held s.world
  xids : Xids s.world
  segs : Segs s.world
  seqs : Seqs s.world
  logged : Logged s.world
  books : Books s

theorem books_next (h : LedgerInv s) (hok : s.Accountable a) (hn : Stream.next s.world a = some w') : Books ⟨w', s.note a, s.move a⟩ := by
  have hs := step_of_next hn
  by_cases hcommit : ∃ i x rows ids, a = .run i ∧ s.world.txs[i]? = some (.written x rows ids)
  · obtain ⟨i, x, rows, ids, rfl, hi⟩ := hcommit
    have hw' : w' = s.world.commit i rows ids := by
      simp only [Stream.next, hi, exec, Option.some.injEq] at hn
      exact hn.symm
    have hmove : s.move (.run i) = s.moved ++ (s.world.seg.retries.filter (·.id ∈ ids)).zip rows := by simp only [Ledger.move, hi]
    rw [hw', hmove]
    exact books_commit h.books h.seqs h.logged hi
  · have hcall : ∀ x rows ids, s.world.call a ≠ some (.written x rows ids) := by
      intro x rows ids hc
      cases a with
      | run i => exact hcommit ⟨i, x, rows, ids, rfl, hc⟩
      | _ => cases hc
    have hmove : s.move a = s.moved := by
      cases a with
      | run i =>
        simp only [Ledger.move]
        split
        · next x rows ids hi => exact absurd hi (hcall x rows ids)
        · rfl
      | _ => rfl
    rw [hmove]
    by_cases hnack : ∃ n b e k, a = .nack n b e k
    · obtain ⟨began, batch, eventId, secs, rfl⟩ := hnack
      simp only [Stream.next] at hn
      split at hn
      · exact books_nack h.held h.segs h.books hok hn
      · cases hn
    · have hno : ∀ n b e k, a ≠ .nack n b e k := fun n b e k heq => hnack ⟨n, b, e, k, heq⟩
      have hnote : s.note a = s.nacks := by
        cases a with
        | nack n b e k => exact absurd rfl (hno n b e k)
        | _ => rfl
      obtain ⟨hrows, hretries, hdead⟩ := rows_step h.books.rows hs hno hcall
      rw [hnote]
      exact h.books.frame h.seqs h.logged (step_follows hs) hrows hretries hdead

theorem ledgerInv_next {s' : Ledger} (h : LedgerInv s) (hok : s.Accountable a) (hn : s.next a = some s') : LedgerInv s' := by
  obtain ⟨w', hw', rfl⟩ := map_eq_some_iff.1 hn
  have hs := step_of_next hw'
  exact ⟨held_next h.held hs, xids_next h.xids (fun t ht e he => (h.segs.rows t ht e he).2) hs, segs_next h.xids h.segs hs,
    seqs_next h.segs h.seqs hs, (step_follows hs).logged h.segs h.logged, books_next h hok hw'⟩

theorem ledgerInv_init (maxRetries retention : Nat) : LedgerInv (Ledger.init maxRetries retention) :=
  ⟨held_init _ _, xids_init _ _, segs_init _ _, ⟨nofun, nofun, nodup_nil, nofun, nofun, fun _ _ _ _ h => nomatch h⟩, ⟨nofun, nofun⟩,
    ⟨nofun, nofun, (fun _ _ _ _ h => nomatch h), nofun, nofun, nofun⟩, nofun, nofun, nofun, fun _ _ _ => rfl⟩

theorem LedgerInv.accounted (h : LedgerInv s) : Accounted s := by
  refine ⟨h.books.tally, fun x hx e he hseq hnot => h.books.tally.never _ _ fun e' hmem heq => ?_, fun y hy => (h.books.moved y hy).1⟩
  have honly := (h.books.nacked x.id e' hmem).2.2 x hx rfl
  exact hnot (honly.2 e he hseq heq.symm ▸ hmem)

/-- In every run in which a message is nacked by an id of its own, and not after a retry of it has
come back, every nacked message has one retry or one dead letter. -/
theorem nacks_accounted (maxRetries retention : Nat) (acts : List Act) (s : Ledger)
    (hok : ledger.Allowed Ledger.Accountable (.init maxRetries retention) acts)
    (hrun : ledger.run (.init maxRetries retention) acts = some s) : Accounted s := by
  have hstep : ∀ v a v', LedgerInv v → Ledger.Accountable v a → ledger.next v a = some v' → LedgerInv v' :=
    fun _ _ _ hv ho hn => ledgerInv_next hv ho hn
  exact (Machine.invariant hstep (ledgerInv_init maxRetries retention) hok hrun).accounted

/-- A consumer receives events 1 and 2 in one batch. -/
def oneBatch : List Act := [.connect] ++ call 0 2 (.subscribe 1 none) ++ call 0 2 (.append [1, 2]) ++ call 0 8 (.receive 1 0 10)

/-- Both events are nacked, one of them twice. They come back, are nacked again, and are too many
retries then. -/
def nackToTheEnd : List Act :=
  oneBatch ++ [.nack 0 1 1 0, .nack 0 1 1 0, .nack 0 1 2 0] ++ call 0 3 (.processRetries 10) ++ call 0 2 (.ack 1) ++
    call 0 8 (.receive 1 0 10) ++ [.nack 0 2 1 0]

theorem nacked_twice_accounted : ∃ s, ledger.run (.init 1 10) nackToTheEnd = some s ∧
    s.outcomes 1 1 = [1] ∧ s.outcomes 1 2 = [1] ∧ s.outcomes 2 1 = [2] ∧ s.outcomes 2 2 = [] ∧ Accounted s := by
  have hrun : ((ledger.runIf Ledger.Accountable (.init 1 10) nackToTheEnd).map fun s =>
      (s.outcomes 1 1, s.outcomes 1 2, s.outcomes 2 1, s.outcomes 2 2)) = some ([1], [1], [2], []) := by decide +kernel
  obtain ⟨s, hs, heq⟩ := map_eq_some_iff.1 hrun
  obtain ⟨hok, hs⟩ := Machine.runIf_spec hs
  simp only [Prod.mk.injEq] at heq
  exact ⟨s, hs, heq.1, heq.2.1, heq.2.2.1, heq.2.2.2, nacks_accounted 1 10 _ s hok hs⟩

/-- The retry of event 1 comes back before the batch is acked, and event 1 is nacked again. -/
def repeatedNack : List Act :=
  oneBatch ++ [.nack 0 1 1 0] ++ call 0 3 (.processRetries 10) ++ [.nack 0 1 1 0] ++ call 0 3 (.processRetries 10) ++ call 0 2 (.ack 1)

/-- Event 1 is in the stream three times now. -/
theorem repeated_nack_retries_twice : ¬ ∀ (maxRetries retention : Nat) (acts : List Act) (s : Ledger),
      ledger.run (.init maxRetries retention) acts = some s → Accounted s := by
  intro hclaim
  have hrun : ((ledger.run (.init 5 10) repeatedNack).map fun s =>
    (s.nacks.map fun x => (x.1, x.2.eventId, x.2.retryCount), s.outcomes 1 1)) =
      some ([(1, 1, 0), (1, 1, 0)], [1, 1]) := by decide +kernel
  obtain ⟨s, hs, heq⟩ := map_eq_some_iff.1 hrun
  simp only [Prod.mk.injEq] at heq
  obtain ⟨x, hx, hkey⟩ := mem_map.1 (heq.1.symm ▸ mem_cons_self : (1, 1, 0) ∈ s.nacks.map fun x => (x.1, x.2.eventId, x.2.retryCount))
  simp only [Prod.mk.injEq] at hkey
  have hone := (hclaim 5 10 _ s hs).tally.once x.1 x.2 hx
  rw [hkey.1, hkey.2.1, hkey.2.2, heq.2] at hone
  exact absurd hone (by decide)

end Pgvs3.Stream
