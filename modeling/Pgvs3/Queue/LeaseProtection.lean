import Pgvs3.Queue.JobLifecycle
/-!
# What a lease protects

By `change_of_step` the one statement that does not look at the lease is `ExpireMessages`
(`ojs.go:688-699`): it deletes every row whose `expires_at` has passed, although `jobTransitions`
has no expiry from `active`. A worker that takes longer than the job has to live loses the row under
its lease (`expiry_breaks_lease`). `Spares` leaves this out.
-/

namespace Pgvs3.Jobs

open List Option

variable {w w' : World} {a : Act} {r : Row} {m : Mutation}

def Job.leased (j : Job) (now : Int) : Prop := j.state = .active ∧ j.leaseLive now

instance (j : Job) (now : Int) : Decidable (j.leased now) := inferInstanceAs (Decidable (_ ∧ _))

/-- A sweep deletes no leased job. -/
def Call.Spares (w : World) : Call → Prop
  | .expire victims => ∀ r ∈ w.rows, r.job ∈ victims → ¬ r.job.leased w.now
  | _ => True

instance (w : World) (c : Call) : Decidable (c.Spares w) := by
  unfold Call.Spares
  split <;> infer_instance

def Spares (w : World) (a : Act) : Prop := ∀ c ∈ w.call a, c.Spares w

instance (w : World) (a : Act) : Decidable (Spares w a) := inferInstanceAs (Decidable (∀ c ∈ w.call a, c.Spares w))

/-- A leased job is as it was, unless the step commits a cancel or a request with its token. -/
def Shielded (w : World) (a : Act) (w' : World) : Prop :=
  ∀ r ∈ w.rows, r.job.leased w.now → Kept w' r ∨ ∃ c ∈ w.call a, c.Cancels r.job.id ∨ ∃ t ∈ r.job.leaseToken, c.Carries r.job.id t

instance (w : World) (a : Act) (w' : World) : Decidable (Shielded w a w') := inferInstanceAs (Decidable (∀ r ∈ w.rows, _))

/-- A statement of `mutateJob`. The queue is known once `queueForJob` has answered. -/
structure MutationStep where
  session : Nat
  request : Mutation
  queue : Option Nat

def World.mutation (w : World) : Act → Option MutationStep
  | .start i (.ack id token result) => some ⟨i, ⟨id, token, .ack, result, false⟩, none⟩
  | .start i (.nack id token jobErr retryable) => some ⟨i, ⟨id, token, .nack, jobErr, retryable⟩, none⟩
  | .start i (.cancel id) => some ⟨i, ⟨id, 0, .cancel, 0, false⟩, none⟩
  | .run i _ =>
    match w.calls[i]? with
    | some (.resolved m queue) | some (.begun m queue _) | some (.read m queue _) => some ⟨i, m, some queue⟩
    | _ => none
  | _ => none

/-- The ack goes on, or it has completed the job. -/
def Call.Serves (m : Mutation) : Call → Prop
  | .resolved m' _ | .begun m' _ _ | .read m' _ _ => m' = m
  | .answered (.job j _) => j.state = .completed
  | _ => False

instance (m : Mutation) (c : Call) : Decidable (c.Serves m) :=
  decidable_of_iff ((match c with
    | .resolved m' _ | .begun m' _ _ | .read m' _ _ => decide (m' = m)
    | .answered (.job j _) => decide (j.state = .completed)
    | _ => false : Bool) = true)
    (by unfold Call.Serves; split <;> simp)

/-- An ack with the token of the row's last lease, before its deadline, goes on or succeeds, unless
the job is settled already or cancelled. A row of another queue is another job. -/
def MutationStep.Served (x : MutationStep) (now : Int) (after : Option Call) (r : Row) : Prop :=
  r.job.id = x.request.id → (∀ q ∈ x.queue, r.job.queue = q) → ∀ l ∈ r.hist.lease, l.1 = x.request.leaseToken → now < l.2 →
    l.1 ∈ r.hist.settled ∨ r.job.state = .cancelled ∨ ∃ c ∈ after, c.Serves x.request

instance (x : MutationStep) (now : Int) (after : Option Call) (r : Row) : Decidable (x.Served now after r) :=
  inferInstanceAs (Decidable (_ → _ → ∀ l ∈ r.hist.lease, _))

/-- An ack within its lease succeeds unless the job was cancelled. -/
def Served (w : World) (a : Act) (w' : World) : Prop :=
  ∀ x ∈ w.mutation a, x.request.event = .ack → ∀ r ∈ w.rows ++ w.removed, x.Served w.now w'.calls[x.session]? r

instance (w : World) (a : Act) (w' : World) : Decidable (Served w a w') := inferInstanceAs (Decidable (∀ x ∈ w.mutation a, _))

/-! ## Where the sweeps spare leased jobs -/

theorem shielded (hinv : Inv w) (hspares : Spares w a) (hn : next w a = some w') : Shielded w a w' := by
  intro r hr ⟨hactive, u, hu, hlive⟩
  rcases change_of_step hinv (step_of_next hn) hr with hkept | hchange
  · exact .inl hkept
  · cases hchange with
    | carried c t hc hcarries _ ht => exact .inr ⟨c, hc, .inr ⟨t, ht, hcarries⟩⟩
    | cancelled c hc hcancels => exact .inr ⟨c, hc, .inl hcancels⟩
    | lapsed c hc _ _ hover => exact absurd (hover hactive u hu) (Int.not_le.2 hlive)
    | removed victims hc hv => exact absurd ⟨hactive, u, hu, hlive⟩ (hspares _ hc r hr hv)

/-- The lease of a deleted job was settled, cancelled or over. -/
def Released (w : World) : Prop :=
  ∀ r ∈ w.removed, ∀ t u, r.hist.lease = some (t, u) → t ∈ r.hist.settled ∨ r.job.state = .cancelled ∨ u ≤ w.now

variable {u began : Int} {c : Call} {i queue : Nat}

/-- The last lease of a row is the one it has, or it is over. -/
theorem Inv.lease_cases (hinv : Inv w) (hr : r ∈ w.rows) {t : Nat} (hl : r.hist.lease = some (t, u)) :
    (r.job.state = .active ∧ r.job.leaseToken = some t ∧ r.job.leaseUntil = some u) ∨
      t ∈ r.hist.settled ∨ r.job.state = .cancelled ∨ u ≤ w.now := by
  by_cases hactive : r.job.state = .active
  · obtain ⟨-, t', u', ht, hu, -, hl', -⟩ := (hinv.rows r hr).active hactive
    cases hl.symm.trans hl'
    exact .inl ⟨hactive, ht, hu⟩
  · exact .inr ((hinv.rows r hr).ended hactive t u hl)

theorem now_le_of_step (hstep : Step w a w') : w.now ≤ w'.now := by
  cases hstep with
  | elapse time => exact Int.le_add_of_nonneg_right (Int.natCast_nonneg _)
  | _ => exact Int.le_refl _

theorem released_next (hinv : Inv w) (hrel : Released w) (hspares : Spares w a) (hn : next w a = some w') : Released w' := by
  have hstep := step_of_next hn
  have hle := now_le_of_step hstep
  have hold : ∀ r ∈ w.removed, ∀ t u, r.hist.lease = some (t, u) → t ∈ r.hist.settled ∨ r.job.state = .cancelled ∨ u ≤ w'.now :=
    fun r hr t u hl => (hrel r hr t u hl).imp_right fun h => h.imp_right fun hu => Int.le_trans hu hle
  intro r hr t u hl
  obtain heq | ⟨victims, hc, heq⟩ := removed_of_step hstep
  · exact hold r (heq ▸ hr) t u hl
  · rw [heq] at hr
    rcases mem_append.1 hr with hr' | hr'
    · exact hold r hr' t u hl
    · obtain ⟨hmem, hv⟩ := mem_filter.1 hr'
      rcases hinv.lease_cases hmem hl with ⟨hactive, -, hu⟩ | hover
      · have hnot := hspares _ hc r hmem (of_decide_eq_true hv)
        exact .inr (.inr (Int.le_trans (Int.not_lt.1 fun hlt => hnot ⟨hactive, u, hu, hlt⟩) hle))
      · exact hover.imp_right fun h => h.imp_right fun hu => Int.le_trans hu hle

theorem mutate_ack (cfg : Config) {j : Job} (hm : m.event = .ack) (hactive : j.state = .active)
    (ht : j.leaseToken = some m.leaseToken) (hlive : j.leaseLive began) :
    ∃ j', mutate cfg m began j = .ok j' ∧ j'.state = .completed := by
  obtain ⟨id, token, event, payload, retryable⟩ := m
  cases hm
  simp [mutate, transition, jobTransitions, TransitionInput.result, hactive, ht, hlive, Mutation.change]

theorem calls_set {c' : Call} (hi : w.calls[i]? = some c) : (w.set i c').calls[i]? = some c' := by
  rw [World.set, getElem?_set_self', hi]
  rfl

theorem serves_mutateJob (hi : w.calls[i]? = some c) (hr : r ∈ w.rows) (hid : r.job.id = m.id) :
    ∃ c', (w.mutateJob i m).calls[i]? = some c' ∧ c'.Serves m := by
  unfold World.mutateJob World.queueForJob
  cases hfind : w.rows.find? (·.job.id = m.id) with
  | none => exact absurd (decide_eq_true hid) (find?_eq_none.1 hfind r hr)
  | some x => exact ⟨_, calls_set hi, rfl⟩

theorem find_isSome (hr : r ∈ w.rows) (his : r.is queue m.id) : ∃ x, w.rows.find? (·.is queue m.id) = some x := by
  cases hfind : w.rows.find? (·.is queue m.id) with
  | none => exact absurd (decide_eq_true his) (find?_eq_none.1 hfind r hr)
  | some x => exact ⟨x, rfl⟩

theorem serves_lockRow (hi : w.calls[i]? = some c) (hr : r ∈ w.rows) (his : r.is queue m.id)
    (hn : w.lockRow i m queue began = some w') : ∃ c', w'.calls[i]? = some c' ∧ c'.Serves m := by
  obtain ⟨x, hx⟩ := find_isSome hr his
  unfold World.lockRow at hn
  rw [hx] at hn
  dsimp only at hn
  split at hn
  · cases hn
    exact ⟨_, calls_set hi, rfl⟩
  · cases hn

theorem serves_update (hinv : Inv w) (hi : w.calls[i]? = some (.read m queue began)) (hr : r ∈ w.rows)
    (his : r.is queue m.id) (hack : m.event = .ack) (hactive : r.job.state = .active) (ht : r.job.leaseToken = some m.leaseToken)
    (hlive : r.job.leaseLive w.now) (hn : w.update i m queue began = some w') : ∃ c', w'.calls[i]? = some c' ∧ c'.Serves m := by
  obtain ⟨x, hx⟩ := find_isSome hr his
  obtain ⟨hmem, hisx⟩ := mem_of_find hx
  cases hinv.row_eq hr hmem (his.2.trans hisx.2.symm)
  have hbegan : began ≤ w.now := hinv.calls _ (mem_of_getElem? hi)
  obtain ⟨u, hu, hlt⟩ := hlive
  obtain ⟨j, hj, hstate⟩ := mutate_ack w.cfg hack hactive ht ⟨u, hu, Int.lt_of_le_of_lt hbegan hlt⟩
  unfold World.update at hn
  rw [hx] at hn
  dsimp only at hn
  rw [(hinv.read_row hi hmem his.2).2.1, hj] at hn
  cases hn
  exact ⟨_, calls_set hi, hstate⟩

theorem serves_next {queue : Option Nat} (hinv : Inv w) (hn : next w a = some w')
    (hmut : w.mutation a = some ⟨i, m, queue⟩) (hack : m.event = .ack) (hr : r ∈ w.rows) (hid : r.job.id = m.id)
    (hqueue : ∀ q ∈ queue, r.job.queue = q) (hactive : r.job.state = .active) (ht : r.job.leaseToken = some m.leaseToken)
    (hu : r.job.leaseUntil = some u) (hlive : w.now < u) : ∃ c, w'.calls[i]? = some c ∧ c.Serves m := by
  cases a with
  | start k q =>
    simp only [next] at hn
    split at hn
    · next c hi =>
      split at hn
      · cases q with
        | ack id token result =>
          cases hmut
          cases hn
          exact serves_mutateJob hi hr hid
        | nack | cancel =>
          cases hmut
          cases hack
        | _ => cases hmut
      · cases hn
    · cases hn
  | run k skip =>
    simp only [next, World.mutation] at hn hmut
    split at hmut
    · next m' q hi =>
      cases hmut
      rw [hi] at hn
      cases hn
      exact ⟨_, calls_set hi, rfl⟩
    · next m' q began hi =>
      cases hmut
      rw [hi] at hn
      exact serves_lockRow hi hr ⟨hqueue q rfl, hid⟩ hn
    · next m' q began hi =>
      cases hmut
      rw [hi] at hn
      exact serves_update hinv hi hr ⟨hqueue q rfl, hid⟩ hack hactive ht ⟨u, hu, hlive⟩ hn
    · cases hmut
  | _ => cases hmut

theorem served (hinv : Inv w) (hrel : Released w) (hn : next w a = some w') : Served w a w' := by
  intro ⟨i, m, queue⟩ hmut hack r hr hid hqueue ⟨t, u⟩ hl heq hlive
  cases heq
  -- the lease is over, settled or cancelled, or the row still has it
  have hcases : (r ∈ w.rows ∧ r.job.state = .active ∧ r.job.leaseToken = some m.leaseToken ∧ r.job.leaseUntil = some u) ∨
      m.leaseToken ∈ r.hist.settled ∨ r.job.state = .cancelled := by
    have hdrop : m.leaseToken ∈ r.hist.settled ∨ r.job.state = .cancelled ∨ u ≤ w.now →
        m.leaseToken ∈ r.hist.settled ∨ r.job.state = .cancelled :=
      fun h => h.imp_right fun h' => h'.resolve_right (Int.not_le.2 hlive)
    rcases mem_append.1 hr with hr' | hr'
    · exact (hinv.lease_cases hr' hl).imp (fun h => ⟨hr', h⟩) hdrop
    · exact .inr (hdrop (hrel r hr' _ u hl))
  rcases hcases with ⟨hrow, hactive, ht, hu⟩ | hset | hcan
  · exact .inr (.inr (serves_next hinv hn hmut hack hrow hid hqueue hactive ht hu hlive))
  · exact .inl hset
  · exact .inr (.inl hcan)

/-- **Leases protect their jobs where the sweeps do.** In every run whose sweeps delete no leased
job, only a cancel or a request with its token changes one, and an ack within its lease is served.
-/
theorem lease_protected (cfg : Config) (now : Int) (acts : List Act) (w : World) (hok : machine.Allowed Spares (.init cfg now) acts)
    (hrun : machine.run (.init cfg now) acts = some w) (a : Act) (w' : World) (hspares : Spares w a) (hn : next w a = some w') :
    Shielded w a w' ∧ Served w a w' := by
  have hstep : ∀ v b v', Inv v ∧ Released v → Spares v b → machine.next v b = some v' → Inv v' ∧ Released v' :=
    fun v b v' hv hs hnv => ⟨inv_next hv.1 hnv, released_next hv.1 hv.2 hs hnv⟩
  have hinit : Inv (.init cfg now) ∧ Released (.init cfg now) := ⟨inv_init cfg now, fun r hr => absurd hr not_mem_nil⟩
  obtain ⟨hinv, hrel⟩ := Conc.Machine.invariant hstep hinit hok hrun
  exact ⟨shielded hinv hspares hn, served hinv hrel hn⟩

/-- A job that expires at 5. -/
def shortLived : EnqueueInput := ⟨7, 1, 3, 0, none, ⟨0, 0, 0⟩, some 5⟩

/-- It is leased until 100. -/
def leasedJob : List Act := [.connect, .connect] ++ request 0 2 (.enqueue [shortLived]) ++ request 0 3 (.fetch ⟨[1], 1, 4, 100⟩)

/-- A sweep before the job expires leaves it, and its ack succeeds. -/
theorem acked_within_lease :
    ∃ w w', machine.run (.init ⟨0, fun _ _ => 0⟩ 0)
      (leasedJob ++ [.elapse 3] ++ request 1 1 (.expireMessages 1 10) ++ request 0 2 (.ack 7 1 0)) =
        some w ∧ next w (.run 0 []) = some w' ∧ w'.rows.map (·.job.state) = [.completed] ∧
          Shielded w (.run 0 []) w' ∧ Served w (.run 0 []) w' := by
  have hrun : ((machine.runIf Spares (.init ⟨0, fun _ _ => 0⟩ 0)
      (leasedJob ++ [.elapse 3] ++ request 1 1 (.expireMessages 1 10) ++ request 0 2 (.ack 7 1 0))).bind fun w =>
      (next w (.run 0 [])).map fun w' => (decide (Spares w (.run 0 [])), w'.rows.map (·.job.state))) = some (true, [.completed]) := by
    decide +kernel
  obtain ⟨w, hw, hmap⟩ := bind_eq_some_iff.1 hrun
  obtain ⟨w', hn, hval⟩ := map_eq_some_iff.1 hmap
  obtain ⟨hspares, hrows⟩ := Prod.mk.inj hval
  obtain ⟨hok, hw⟩ := Conc.Machine.runIf_spec hw
  exact ⟨w, w', hw, hn, hrows, lease_protected _ _ _ w hok hw _ w' (of_decide_eq_true hspares) hn⟩

theorem not_always {P : World → Act → World → Prop} [∀ w a w', Decidable (P w a w')] (acts : List Act) (a : Act)
    (h : ((machine.run (.init ⟨0, fun _ _ => 0⟩ 0) acts).bind fun w => (next w a).map fun w' => decide (P w a w')) = some false) :
    ¬ ∀ (cfg : Config) (now : Int) (acts : List Act) (w : World) (a : Act) (w' : World), machine.run (.init cfg now) acts = some w →
      next w a = some w' → P w a w' := by
  intro hclaim
  obtain ⟨w, hw, hmap⟩ := bind_eq_some_iff.1 h
  obtain ⟨w', hn, hval⟩ := map_eq_some_iff.1 hmap
  exact of_decide_eq_false hval (hclaim _ _ _ w _ w' hw hn)

/-- The sweep at 10 deletes the leased job, and the ack of its worker is answered with
`ErrJobNotFound`. -/
theorem expiry_breaks_lease :
    (¬ ∀ (cfg : Config) (now : Int) (acts : List Act) (w : World) (a : Act) (w' : World), machine.run (.init cfg now) acts = some w →
      next w a = some w' → Shielded w a w') ∧
    ¬ ∀ (cfg : Config) (now : Int) (acts : List Act) (w : World) (a : Act) (w' : World), machine.run (.init cfg now) acts = some w →
      next w a = some w' → Served w a w' := by
  refine ⟨not_always (leasedJob ++ [.elapse 10, .start 1 (.expireMessages 1 10)]) (.run 1 []) (by decide +kernel), ?_⟩
  exact not_always (leasedJob ++ [.elapse 10] ++ request 1 1 (.expireMessages 1 10)) (.start 0 (.ack 7 1 0)) (by decide +kernel)

end Pgvs3.Jobs
