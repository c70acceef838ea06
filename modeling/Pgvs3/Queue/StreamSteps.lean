import Pgvs3.Queue.Stream
/-!
# What a step of a stream can do

`Stage` are the steps after which only the place of one call has changed; `Step` are all steps.
`step_of_next` reads them off the step function once, for all invariants.
-/

namespace Pgvs3.Stream

open List

/-- The call goes from one place to another and writes nothing that others can see. -/
inductive Stage (w : World) : Tx → Tx → Prop
  | append (ids : List Nat) : w.rotation = none → Stage w .idle (.append w.seg.current ids)
  | retries (limit began : Nat) : w.rotation = none → Stage w .idle (.retries w.seg.current limit began)
  | subscribe (c : Nat) (fromTick : Option Nat) : w.rotation = none → Stage w .idle (.subscribe c fromTick)
  | asking (c m limit began : Nat) : w.rotation = none → Stage w .idle (.asking ⟨c, m, limit, began, 0, false⟩)
  | ack (b : Batch) : b ∈ w.cur.batches → Stage w .idle (.ack b.id b.consumer)
  | prune (ids : List Nat) : Stage w .idle (.prune ids)
  /-- A rollback, an error, or the end of a call that has nothing to commit. -/
  | stop (t : Tx) : Stage w t .idle
  | due (segment limit began : Nat) (picked : List Nat) : Stage w (.retries segment limit began) (.due segment picked)
  | placed (c : Nat) (fromTick : Option Nat) (t : Tick) : t ∈ w.cur.ticks → Stage w (.subscribe c fromTick) (.placed c t.id)
  | owned (r : Receive) (s : Sub) : w.cur.sub? r.consumer = some s → w.rowFree r.consumer →
      Stage w (.asking r) (.receive { r with lastSeen := s.lastTick } .owned)
  | missing (r : Receive) : Stage w (.asking r) (.missing r)
  | latest (r : Receive) (t : Tick) : t ∈ w.cur.ticks → Stage w (.missing r) (.latest { r with lastSeen := t.id })
  | entered (r : Receive) : w.cur.sub? r.consumer = none → w.rowFree r.consumer →
      Stage w (.latest r) (.receive { r with fresh := true } .owned)
  | idle (r : Receive) : Stage w (.receive r .owned) (.receive r .idle)
  | ranged (r : Receive) (s : Sub) (t : Tick) : r.sub w.cur = some s → ¬ (r.member = 0 ∧ r.lastSeen < s.nextTick) →
      t ∈ w.cur.ticks → max s.nextTick r.lastSeen < t.id →
      Stage w (.receive r .idle) (.receive r (.ranged (max s.nextTick r.lastSeen) t.id none))
  | newest (r : Receive) (s : Sub) : r.sub w.cur = some s → ¬ (r.member = 0 ∧ r.lastSeen < s.nextTick) →
      Stage w (.receive r .idle) (.receive r (.newest (max s.nextTick r.lastSeen)))
  | visible (r : Receive) (startAt : Nat) : Stage w (.receive r (.newest startAt)) (.receive r (.visible startAt))
  | stamped (r : Receive) (startAt : Nat) :
      Stage w (.receive r (.visible startAt)) (.receive r (.stamped startAt w.snapshot w.cur.tickSeq))
  | collected (r : Receive) (startAt endAt : Nat) (own : Option Tick) :
      Stage w (.receive r (.ranged startAt endAt own)) (.receive r (.collected startAt endAt own (w.collect startAt endAt own)))
  | chained (b c : Nat) (s : Sub) : w.cur.sub? c = some s →
      Stage w (.ack b c) (.chained b c s.lastTick (w.cur.chain b c s.lastTick))

inductive Step (w : World) : Act → World → Prop
  | connect : Step w .connect { w with txs := w.txs ++ [.idle] }
  | elapse (time : Nat) : Step w (.elapse time) { w with now := w.now + time }
  | stage (a : Act) (i : Nat) {t t' : Tx} : w.txs[i]? = some t → Stage w t t' → (t ≠ .idle → t' ≠ .idle → a = .run i) →
      Step w a (w.set i t')
  /-- An action on a session that does not exist. -/
  | nothing (a : Act) : Step w a w
  | other (a : Act) (i : Nat) : w.txs[i]? = some .idle → Step w a { w.set i (.other w.xid) with xid := w.xid + 1 }
  | write (i segment : Nat) (rows : List (Nat × Nat)) (moved : List Nat) {t : Tx} : w.txs[i]? = some t →
      ((∃ ids, t = .append segment ids ∧ moved = []) ∨ ∃ picked, t = .due segment picked ∧ (∀ u ∈ w.txs, ∀ k ∈ picked, k ∉ u.moved) ∧
        rows = (w.seg.retries.filter (·.id ∈ picked)).map (fun r => (r.eventId, r.retryCount)) ∧
        moved = (w.seg.retries.filter (·.id ∈ picked)).map (·.id)) →
      Step w (.run i) (w.write i segment rows moved)
  | commit (i x : Nat) (rows : List Event) (moved : List Nat) : w.txs[i]? = some (.written x rows moved) →
      Step w (.run i) (w.commit i rows moved)
  | enter (i c target : Nat) : w.txs[i]? = some (.placed c target) → w.cur.sub? c = none → w.rowFree c →
      Step w (.run i) ((w.enter c target).set i .idle)
  /-- A receive that returns and leaves the cursor where it is. -/
  | enrol (i : Nat) (r : Receive) (p : Place) : w.txs[i]? = some (.receive r p) → Step w (.run i) ((w.enrol r).set i .idle)
  | newTick (i : Nat) (r : Receive) (startAt : Nat) (s : Snapshot) (m : Nat) : w.txs[i]? = some (.receive r (.stamped startAt s m)) →
      Step w (.run i) (w.newTick i r startAt s)
  | settle (i : Nat) (r : Receive) (startAt endAt : Nat) (own : Option Tick) (seqs : List Nat) :
      w.txs[i]? = some (.receive r (.collected startAt endAt own seqs)) → Step w (.run i) (w.settle i r startAt endAt own seqs)
  | ackEnd (i b c base : Nat) (chain : List Batch) : w.txs[i]? = some (.chained b c base chain) → (chain = [] ∨ w.rowFree c) →
      Step w (.run i) (w.ackEnd i b c chain)
  | prune (i : Nat) (ids : List Nat) : w.txs[i]? = some (.prune ids) →
      Step w (.run i) { w.set i .idle with cur := { w.cur with ticks := w.cur.ticks.filter (·.id ∉ ids) } }
  | nack (began batch eventId secs : Nat) (retries : List Retry) (retrySeq : Nat) (dead : List DeadLetter) :
      Step w (.nack began batch eventId secs) { w with seg := { w.seg with retries, retrySeq, dead } }
  | rotate (began : Nat) : w.rotation = none → (∀ t ∈ w.txs, t.shared = false) → began ≤ w.now →
      Step w (.rotate began) { w with rotation := some (.locked began) }
  | check (began : Nat) : w.rotation = some (.locked began) →
      ¬ ((∃ e ∈ w.seg.events, e.segment = (w.seg.current + 1) % 3) ∧
        (w.pinned ((w.seg.current + 1) % 3) ∨ w.batched ((w.seg.current + 1) % 3))) →
      2 * w.seg.startedAt + w.retention ≤ 2 * began →
      Step w .check { w with rotation := some (.checked ((w.seg.current + 1) % 3) w.xid began), xid := w.xid + 1 }
  | giveUp (a : Act) : Step w a { w with rotation := none }
  | truncate (target x began : Nat) : w.rotation = some (.checked target x began) → Step w .truncate (w.truncate target x began)

def World.call (w : World) : Act → Option Tx
  | .run i => w.txs[i]?
  | _ => none

variable {n began i : Nat} {cur : Cursors} {a : Act} {w w' : World}

theorem mem_of_max? {l : List Tick} {f : Nat → Bool} (h : ((l.map (·.id)).filter f).max? = some n) : ∃ t ∈ l, t.id = n ∧ f n = true := by
  obtain ⟨hmem, hf⟩ := mem_filter.1 (max?_mem h)
  obtain ⟨t, ht, rfl⟩ := mem_map.1 hmem
  exact ⟨t, ht, rfl, hf⟩

theorem latestTick_mem (h : cur.latestTick = some n) : ∃ t ∈ cur.ticks, t.id = n := by
  obtain ⟨t, ht, hn⟩ := mem_map.1 (max?_mem h)
  exact ⟨t, ht, hn⟩

theorem target_mem {fromTick : Option Nat} (h : cur.target fromTick = some n) : ∃ t ∈ cur.ticks, t.id = n := by
  unfold Cursors.target at h
  split at h
  · exact latestTick_mem h
  · obtain ⟨t, ht, hn⟩ := mem_map.1 (min?_mem h)
    exact ⟨t, ht, hn⟩
  · split at h
    · next ht =>
      cases h
      exact ht
    · cases h

theorem step_of_start {r : Request} (hi : w.txs[i]? = some .idle) (hn : start w i began r = some w') : Step w a w' := by
  cases r with
  | other =>
    cases hn
    exact .other a i hi
  | append ids =>
    simp only [start] at hn
    split at hn
    · next hr =>
      cases hn
      exact .stage a i hi (.append ids hr) fun h => absurd rfl h
    · cases hn
  | processRetries limit =>
    simp only [start] at hn
    split at hn
    · next hr =>
      cases hn
      exact .stage a i hi (.retries limit began hr) fun h => absurd rfl h
    · cases hn
  | subscribe c fromTick =>
    simp only [start] at hn
    split at hn
    · next hr =>
      cases hn
      exact .stage a i hi (.subscribe c fromTick hr) fun h => absurd rfl h
    · cases hn
  | receive c m limit =>
    simp only [start] at hn
    split at hn
    · next hr =>
      cases hn
      exact .stage a i hi (.asking c m limit began hr) fun h => absurd rfl h
    · cases hn
  | ack b =>
    simp only [start] at hn
    split at hn
    · next x hx =>
      split at hn
      · cases hn
      · cases hn
        have hid : x.id = b := by simpa using find?_some hx
        rw [← hid]
        exact .stage a i hi (.ack x (mem_of_find?_eq_some hx)) fun h => absurd rfl h
    · cases hn
  | pruneTicks limit =>
    cases hn
    exact .stage a i hi (.prune _) fun h => absurd rfl h

theorem step_of_receiveStep {r : Receive} {p : Place} (hi : w.txs[i]? = some (.receive r p))
    (hn : receiveStep w i r p = some w') : Step w (.run i) w' := by
  cases p with
  | owned =>
    simp only [receiveStep] at hn
    split at hn
    · cases hn
      exact .enrol i r .owned hi
    · cases hn
      exact .stage _ i hi (.idle r) fun _ _ => rfl
  | idle =>
    simp only [receiveStep] at hn
    split at hn
    · next s hs =>
      split at hn
      · cases hn
        exact .stage _ i hi (.stop _) fun _ _ => rfl
      · next hactive =>
        split at hn
        · next n hend =>
          cases hn
          obtain ⟨t, ht, rfl, hlt⟩ := mem_of_max? hend
          exact .stage _ i hi (.ranged r s t hs hactive ht (by simpa using hlt)) fun _ _ => rfl
        · cases hn
          exact .stage _ i hi (.newest r s hs hactive) fun _ _ => rfl
    · cases hn
  | newest startAt =>
    simp only [receiveStep] at hn
    split at hn
    · cases hn
      exact .stage _ i hi (.visible r startAt) fun _ _ => rfl
    · cases hn
      exact .enrol i r _ hi
  | visible startAt =>
    cases hn
    exact .stage _ i hi (.stamped r startAt) fun _ _ => rfl
  | stamped startAt s m =>
    cases hn
    exact .newTick i r startAt s m hi
  | ranged startAt endAt own =>
    simp only [receiveStep] at hn
    split at hn
    · cases hn
      exact .stage _ i hi (.stop _) fun _ _ => rfl
    · cases hn
      exact .stage _ i hi (.collected r startAt endAt own) fun _ _ => rfl
  | collected startAt endAt own seqs =>
    cases hn
    exact .settle i r startAt endAt own seqs hi

theorem step_of_exec {t : Tx} (hi : w.txs[i]? = some t) (hn : exec w i t = some w') : Step w (.run i) w' := by
  cases t with
  | idle => cases hn
  | other x =>
    cases hn
    exact .stage _ i hi (.stop _) fun _ _ => rfl
  | append segment ids =>
    cases hn
    exact .write i segment _ _ hi (.inl ⟨ids, rfl, rfl⟩)
  | retries segment limit began =>
    cases hn
    exact .stage _ i hi (.due segment limit began _) fun _ _ => rfl
  | due segment picked =>
    simp only [exec] at hn
    split at hn
    · cases hn
    · next hfree =>
      cases hn
      exact .write i segment _ _ hi (.inr ⟨picked, rfl, fun u hu k hk hm => hfree ⟨u, hu, k, hk, hm⟩, rfl, rfl⟩)
  | written x rows moved =>
    cases hn
    exact .commit i x rows moved hi
  | subscribe c fromTick =>
    simp only [exec] at hn
    split at hn
    · next target htarget =>
      cases hn
      obtain ⟨t, ht, rfl⟩ := target_mem htarget
      exact .stage _ i hi (.placed c fromTick t ht) fun _ _ => rfl
    · cases hn
      exact .stage _ i hi (.stop _) fun _ _ => rfl
  | placed c target =>
    simp only [exec] at hn
    split at hn
    · cases hn
      exact .stage _ i hi (.stop _) fun _ _ => rfl
    · next hsub =>
      split at hn
      · next hfree =>
        cases hn
        exact .enter i c target hi (by simpa using hsub) hfree
      · cases hn
  | asking r =>
    simp only [exec] at hn
    split at hn
    · next s hs =>
      split at hn
      · next hfree =>
        cases hn
        exact .stage _ i hi (.owned r s hs hfree) fun _ _ => rfl
      · cases hn
    · cases hn
      exact .stage _ i hi (.missing r) fun _ _ => rfl
  | missing r =>
    simp only [exec] at hn
    split at hn
    · next n hlatest =>
      cases hn
      obtain ⟨t, ht, rfl⟩ := latestTick_mem hlatest
      exact .stage _ i hi (.latest r t ht) fun _ _ => rfl
    · cases hn
  | latest r =>
    simp only [exec] at hn
    split at hn
    · next hfree =>
      split at hn
      · cases hn
        exact .stage _ i hi (.stop _) fun _ _ => rfl
      · next hsub =>
        cases hn
        exact .stage _ i hi (.entered r (by simpa using hsub) hfree) fun _ _ => rfl
    · cases hn
  | receive r p => exact step_of_receiveStep hi hn
  | ack b c =>
    simp only [exec] at hn
    split at hn
    · next s hs =>
      cases hn
      exact .stage _ i hi (.chained b c s hs) fun _ _ => rfl
    · cases hn
  | chained b c base chain =>
    simp only [exec] at hn
    split at hn
    · next hfree =>
      cases hn
      exact .ackEnd i b c base chain hi hfree
    · cases hn
  | prune ids =>
    cases hn
    exact .prune i ids hi

theorem step_of_nack {batch eventId secs : Nat} (hn : w.nack began batch eventId secs = some w') :
    Step w (.nack began batch eventId secs) w' := by
  unfold World.nack at hn
  split at hn
  · split at hn
    · cases hn
    · split at hn
      · split at hn
        · split at hn
          · cases hn
            exact .nothing _
          · cases hn
            exact .nack _ _ _ _ _ _ _
        · split at hn
          · cases hn
          · split at hn
            · cases hn
              exact .nothing _
            · cases hn
              exact .nack _ _ _ _ _ _ _
      · cases hn
  · cases hn

theorem step_of_next (hn : next w a = some w') : Step w a w' := by
  cases a with
  | connect =>
    cases hn
    exact .connect
  | elapse time =>
    cases hn
    exact .elapse time
  | start i began r =>
    simp only [next] at hn
    split at hn
    · next hi =>
      split at hn
      · exact step_of_start hi hn
      · cases hn
    · cases hn
  | run i =>
    simp only [next] at hn
    split at hn
    · next t hi => exact step_of_exec hi hn
    · cases hn
  | abort i =>
    cases hn
    cases hi : w.txs[i]? with
    | some t => exact .stage _ i hi (.stop t) fun _ h => absurd rfl h
    | none =>
      have hset : w.set i .idle = w := by
        simp [World.set, set_eq_of_length_le (getElem?_eq_none_iff.1 hi)]
      rw [hset]
      exact .nothing _
  | nack began batch eventId secs =>
    simp only [next] at hn
    split at hn
    · exact step_of_nack hn
    · cases hn
  | rotate began =>
    simp only [next] at hn
    split at hn
    · next h =>
      cases hn
      exact .rotate began h.1 h.2.2 h.2.1
    · cases hn
  | check =>
    simp only [next] at hn
    split at hn
    · next began hr =>
      simp only [World.check] at hn
      split at hn
      · next h =>
        cases hn
        exact .check began hr h.2 h.1
      · cases hn
        exact .giveUp _
    · cases hn
  | truncate =>
    simp only [next] at hn
    split at hn
    · next target x began hr =>
      cases hn
      exact .truncate target x began hr
    · cases hn
  | giveUp =>
    cases hn
    exact .giveUp _

end Pgvs3.Stream
