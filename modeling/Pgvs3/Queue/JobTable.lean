import Pgvs3.Queue.Jobs
/-!
# The SQL of the queue and the table of transitions

`fetchQueueTx` and `DiscardExpiredLeases` (`store/ojs.go:340-366`, `710-738`) do in SQL, over the
generated column `next_visible_at`, what `Transition` (`857-917`) says in Go. The SQL takes
`enqueued_at` for a `scheduled_at` that is missing, keeps an available row back until its
`scheduled_at`, and the sweep does not look at `expires_at`. They agree on `Regular` rows and on no
others.
-/

namespace Pgvs3.Jobs

namespace Job

variable (cfg : Config) (now : Int) (j : Job)

/-- What an event makes of a row at `now`. That the lease is over is for the caller of `Transition`
to know. -/
def event (e : JobEvent) : Option Job :=
  if e = .leaseExpired ∧ j.leaseLive now then none
  else
    match transition cfg ⟨j.state, e, now, j.scheduledAt, j.expiresAt, j.attempt, j.maxAttempts, j.retry, false⟩ with
    | .ok t => some { j with state := t.state, attempt := t.attempt }
    | .error _ => none

def events : List JobEvent → Option Job := List.foldlM (fun j e => j.event cfg now e) j

/-- The events after which a row is leased again, or given up. -/
def due : List JobEvent :=
  match j.state with
  | .scheduled | .retryable => [.scheduleDue, .lease]
  | .active => if j.attempt < j.maxAttempts then [.leaseExpired, .lease] else [.leaseExpired]
  | _ => [.lease]

/-- `expires_at IS NULL OR expires_at > now()`. -/
def unexpired : Prop := ∀ e ∈ j.expiresAt, now < e

instance : Decidable (j.unexpired now) := inferInstanceAs (Decidable (∀ e ∈ j.expiresAt, now < e))

def Agrees (a b : Job) : Prop := a.state = b.state ∧ a.attempt = b.attempt

/-- The SQL does to the row what the table of transitions says. -/
structure Refines : Prop where
  fetch : j.fetchable now → ∃ k, j.events cfg now j.due = some k ∧
    ∀ token worker visibility, Agrees (j.lease now token worker visibility) k
  discard : j.spent now → ∃ k, j.event cfg now .leaseExpired = some k ∧ Agrees (j.discard now) k
  selected : j.fetchable now ∨ j.spent now ↔ (j.events cfg now j.due).isSome = true ∧ j.unexpired now

/-- The rows for which the column `next_visible_at` and the sweep's condition say what the table
says. -/
structure Regular : Prop where
  scheduled : j.state = .scheduled ∨ j.state = .retryable → j.scheduledAt = none → j.unexpired now → now < j.enqueuedAt
  available : j.state = .available → j.unexpired now → j.scheduledAt.getD j.enqueuedAt ≤ now
  spent : j.spent now → j.unexpired now

variable {j}

/-! ## The events -/

theorem event_scheduleDue (hs : j.state = .scheduled ∨ j.state = .retryable) :
    j.event cfg now .scheduleDue = if ∃ at' ∈ j.scheduledAt, at' ≤ now then some { j with state := .available } else none := by
  have hsource : j.state ∈ [JobState.scheduled, .retryable] := by simpa using hs
  cases hat : j.scheduledAt with
  | none => simp [event, transition, jobTransitions, hsource, TransitionInput.result, hat]
  | some t => by_cases ht : t ≤ now <;> simp [event, transition, jobTransitions, hsource, TransitionInput.result, hat, ht]

theorem event_lease :
    j.event cfg now .lease = if j.state = .available then some { j with state := .active, attempt := max j.attempt 1 } else none := by
  have hmax : (if j.attempt = 0 then 1 else j.attempt) = max j.attempt 1 := by
    split <;> omega
  by_cases hs : j.state = .available
  · simp [event, transition, jobTransitions, TransitionInput.result, hs, hmax]
  · simp [event, transition, jobTransitions, hs]

theorem event_leaseExpired (hs : j.state = .active) : j.event cfg now .leaseExpired = if j.leaseLive now then none
      else if j.attempt < j.maxAttempts then some { j with state := .available, attempt := j.attempt + 1 }
      else some { j with state := .discarded } := by
  by_cases hlive : j.leaseLive now
  · simp [event, hlive]
  · by_cases hmax : j.attempt < j.maxAttempts <;> simp [event, transition, jobTransitions, TransitionInput.result, hs, hlive, hmax]

/-! ## What is due, by state -/

theorem events_scheduled (hs : j.state = .scheduled ∨ j.state = .retryable) : j.events cfg now j.due =
      if ∃ at' ∈ j.scheduledAt, at' ≤ now then some { j with state := .active, attempt := max j.attempt 1 } else none := by
  have hdue : j.due = [.scheduleDue, .lease] := by
    rcases hs with hs | hs <;> simp [due, hs]
  rw [hdue, events, List.foldlM_cons, event_scheduleDue cfg now hs]
  split
  · show (some { j with state := JobState.available } >>= fun k => [JobEvent.lease].foldlM _ k) = _
    simp [event_lease]
  · rfl

theorem events_available (hs : j.state = .available) :
    j.events cfg now j.due = some { j with state := .active, attempt := max j.attempt 1 } := by
  have hdue : j.due = [.lease] := by simp only [due, hs]
  simp [hdue, events, event_lease, hs]

theorem events_active (hs : j.state = .active) : j.events cfg now j.due = if j.leaseLive now then none
      else if j.attempt < j.maxAttempts then some { j with state := .active, attempt := j.attempt + 1 }
      else some { j with state := .discarded } := by
  by_cases hmax : j.attempt < j.maxAttempts
  · have hdue : j.due = [.leaseExpired, .lease] := by simp only [due, hs, hmax, if_true]
    rw [hdue, events, List.foldlM_cons, event_leaseExpired cfg now hs, if_pos hmax, if_pos hmax]
    split
    · rfl
    · simp [event_lease]
  · have hdue : j.due = [.leaseExpired] := by simp only [due, hs, hmax, if_false]
    rw [hdue, events, List.foldlM_cons, event_leaseExpired cfg now hs, if_neg hmax, if_neg hmax]
    split <;> rfl

/-! ## What the SQL selects, by state -/

variable {now} in
theorem not_spent (hs : j.state ≠ .active) : ¬ j.spent now := fun h => hs h.1

theorem fetchable_waiting (hs : j.state = .available ∨ j.state = .scheduled ∨ j.state = .retryable) :
    j.fetchable now ↔ j.unexpired now ∧ j.scheduledAt.getD j.enqueuedAt ≤ now := by
  have hactive : j.state ≠ .active := by
    rintro h
    simp [h] at hs
  have hmem : j.state ∈ [JobState.available, .scheduled, .retryable, .active] := by
    rcases hs with hs | hs | hs <;> simp [hs]
  simp [fetchable, unexpired, nextVisibleAt, hactive, hmem]

theorem not_leaseLive : ¬ j.leaseLive now ↔ ∀ u ∈ j.leaseUntil, u ≤ now := by
  simp [leaseLive]

theorem fetchable_active (hs : j.state = .active) :
    j.fetchable now ↔ j.unexpired now ∧ ¬ j.leaseLive now ∧ j.attempt < j.maxAttempts := by
  rw [not_leaseLive now]
  simp [fetchable, unexpired, nextVisibleAt, hs]

theorem spent_active (hs : j.state = .active) : j.spent now ↔ ¬ j.leaseLive now ∧ ¬ j.attempt < j.maxAttempts := by
  rw [not_leaseLive now]
  simp [spent, hs]

/-! ## Agreement, by state -/

theorem refines_scheduled (hs : j.state = .scheduled ∨ j.state = .retryable) : j.Refines cfg now ↔ j.Regular now := by
  have hne : j.state ≠ .active ∧ j.state ≠ .available := by
    rcases hs with hs | hs <;> simp [hs]
  have hfetch := fetchable_waiting now (.inr hs)
  have hevents := events_scheduled cfg now hs
  constructor
  · intro h
    refine ⟨fun _ hnone hexp => ?_, fun ha => absurd ha hne.2, fun hspent => absurd hspent (not_spent hne.1)⟩
    -- with `enqueued_at` in the past the fetch would take it, but nothing is due
    by_contra hle
    have hsel := h.selected.1 (.inl (hfetch.2 ⟨hexp, by simpa [hnone] using hle⟩))
    simp [hevents, hnone] at hsel
  · intro h
    -- a row that is due has a time
    have hdue : j.unexpired now → (j.scheduledAt.getD j.enqueuedAt ≤ now ↔ ∃ at' ∈ j.scheduledAt, at' ≤ now) := by
      intro hexp
      cases hat : j.scheduledAt with
      | none =>
        have hlate := h.scheduled hs hat hexp
        simpa using hlate
      | some t => simp
    refine ⟨fun hf => ?_, fun hspent => absurd hspent (not_spent hne.1), ?_⟩
    · obtain ⟨hexp, hle⟩ := hfetch.1 hf
      refine ⟨_, by rw [hevents, if_pos ((hdue hexp).1 hle)], fun token worker visibility => ⟨rfl, ?_⟩⟩
      simp [lease, hne.1]
    · rw [hfetch, hevents]
      constructor
      · rintro (⟨hexp, hle⟩ | hspent)
        · exact ⟨by rw [if_pos ((hdue hexp).1 hle)]; rfl, hexp⟩
        · exact absurd hspent (not_spent hne.1)
      · rintro ⟨hsome, hexp⟩
        refine .inl ⟨hexp, (hdue hexp).2 ?_⟩
        by_contra hno
        rw [if_neg hno] at hsome
        cases hsome

theorem refines_available (hs : j.state = .available) : j.Refines cfg now ↔ j.Regular now := by
  have hfetch := fetchable_waiting now (.inl hs)
  have hevents := events_available cfg now hs
  have hspent : ¬ j.spent now := not_spent (by simp [hs])
  constructor
  · intro h
    refine ⟨fun hw => by simp [hs] at hw, fun _ hexp => ?_, fun hsp => absurd hsp hspent⟩
    rcases h.selected.2 ⟨by rw [hevents]; rfl, hexp⟩ with hf | hsp
    · exact (hfetch.1 hf).2
    · exact absurd hsp hspent
  · intro h
    refine ⟨fun _ => ⟨_, hevents, fun token worker visibility => ⟨rfl, ?_⟩⟩, fun hsp => absurd hsp hspent, ?_⟩
    · simp [lease, hs]
    · rw [hfetch, hevents]
      constructor
      · rintro (⟨hexp, -⟩ | hsp)
        · exact ⟨rfl, hexp⟩
        · exact absurd hsp hspent
      · rintro ⟨-, hexp⟩
        exact .inl ⟨hexp, h.available hs hexp⟩

theorem refines_active (hs : j.state = .active) : j.Refines cfg now ↔ j.Regular now := by
  have hfetch := fetchable_active now hs
  have hspent := spent_active now hs
  have hevents := events_active cfg now hs
  constructor
  · intro h
    exact ⟨fun hw => by simp [hs] at hw, fun ha => by simp [hs] at ha, fun hsp => (h.selected.1 (.inr hsp)).2⟩
  · intro h
    refine ⟨fun hf => ?_, fun hsp => ?_, ?_⟩
    · obtain ⟨-, hlive, hmax⟩ := hfetch.1 hf
      refine ⟨_, by rw [hevents, if_neg hlive, if_pos hmax], fun token worker visibility => ⟨rfl, ?_⟩⟩
      simp [lease, hs]
    · obtain ⟨hlive, hmax⟩ := hspent.1 hsp
      exact ⟨{ j with state := .discarded }, by rw [event_leaseExpired cfg now hs, if_neg hlive, if_neg hmax], rfl, rfl⟩
    · -- a lease that is over leads to one of the two
      have hover : (j.events cfg now j.due).isSome = true ↔ ¬ j.leaseLive now := by
        rw [hevents]
        split
        · next hlive => simp [hlive]
        · next hlive => split <;> simp [hlive]
      rw [hover, hfetch]
      constructor
      · rintro (⟨hexp, hlive, -⟩ | hsp)
        · exact ⟨hlive, hexp⟩
        · exact ⟨(hspent.1 hsp).1, h.spent hsp⟩
      · rintro ⟨hlive, hexp⟩
        by_cases hmax : j.attempt < j.maxAttempts
        · exact .inl ⟨hexp, hlive, hmax⟩
        · exact .inr (hspent.2 ⟨hlive, hmax⟩)

theorem refines_other (hno : j.state ∉ [JobState.available, .scheduled, .retryable, .active]) : j.Refines cfg now := by
  have hfetch : ¬ j.fetchable now := fun h => hno h.1
  have hstates : j.state ≠ .available ∧ j.state ≠ .scheduled ∧ j.state ≠ .retryable ∧ j.state ≠ .active := by simpa using hno
  have hspent : ¬ j.spent now := not_spent hstates.2.2.2
  have hdue : j.due = [.lease] := by
    cases hs : j.state <;> simp_all [due]
  have hevents : j.events cfg now j.due = none := by simp [hdue, events, event_lease, hstates.1]
  refine ⟨fun h => absurd h hfetch, fun h => absurd h hspent, ?_⟩
  rw [hevents]
  simp [hfetch, hspent]

end Job

/-- For every row and time, the fetch and the sweep do what the table of transitions says exactly if
the row is regular. -/
theorem refines_iff (cfg : Config) (j : Job) (now : Int) : j.Refines cfg now ↔ j.Regular now := by
  cases hs : j.state with
  | scheduled => exact Job.refines_scheduled cfg now (.inl hs)
  | retryable => exact Job.refines_scheduled cfg now (.inr hs)
  | available => exact Job.refines_available cfg now hs
  | active => exact Job.refines_active cfg now hs
  | unknown | pending | completed | cancelled | discarded =>
    refine ⟨fun _ => ⟨fun hw => ?_, fun ha => ?_, fun hsp => ?_⟩, fun _ => Job.refines_other cfg now (by simp [hs])⟩
    · simp [hs] at hw
    · simp [hs] at ha
    · exact absurd hsp (Job.not_spent (by simp [hs]))

/-- A job on its last attempt whose lease ran out after the job itself had expired. -/
def lateJob : Job :=
  { seq := 1, id := 1, queue := 0, state := .active, attempt := 3, maxAttempts := 3, priority := 0, createdAt := 0, scheduledAt := some 0
    enqueuedAt := 0, startedAt := some 1, completedAt := none, cancelledAt := none, discardedAt := none, expiresAt := some 4
    workerId := some 1, leaseToken := some 1, leaseUntil := some 5, retry := ⟨1000, 60000, 2⟩, retryDelayMS := none, result := none
    error := none }

/-- The sweep takes it, although it has expired. -/
theorem late_job_discarded : ¬ ∀ (cfg : Config) (j : Job) (now : Int), j.state ≠ .unknown → j.Refines cfg now := by
  intro hclaim
  have hsel := (hclaim ⟨0, fun _ _ => 0⟩ lateJob 10 (by decide)).selected
  have hexp : ¬ lateJob.unexpired 10 := by decide
  exact hexp (hsel.1 (.inr (by decide))).2

end Pgvs3.Jobs
