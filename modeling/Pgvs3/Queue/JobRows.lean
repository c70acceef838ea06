import Pgvs3.Conc.Sessions
import Pgvs3.Queue.Jobs
/-!
# What every statement keeps of a job

`Sound`: `attempt` counts the deliveries, with the one that a nack has promised; the token of an
active job is that of its last delivery. There is one lemma for each way in which a statement writes
a row.
-/

namespace Pgvs3.Jobs

open List

structure Sound (now : Int) (token : Nat) (j : Job) (h : History) : Prop where
  known : j.state ≠ .unknown ∧ j.state ≠ .pending
  fresh : j.state = .available ∨ j.state = .scheduled → j.attempt = 0 ∧ h = ⟨[], [], none⟩
  active : j.state = .active → j.attempt = h.delivered.length ∧ ∃ t u, j.leaseToken = some t ∧ j.leaseUntil = some u ∧
    h.delivered.getLast? = some t ∧ h.lease = some (t, u) ∧ t ∉ h.settled
  retryable : j.state = .retryable → j.attempt = h.delivered.length + 1 ∧ j.attempt ≤ j.maxAttempts
  bound : h.delivered.length ≤ max 1 j.maxAttempts
  /-- A lease that is over was settled, cancelled or has passed its deadline. -/
  ended : j.state ≠ .active → ∀ t u, h.lease = some (t, u) → t ∈ h.settled ∨ j.state = .cancelled ∨ u ≤ now
  delivered : h.delivered.Nodup ∧ ∀ t ∈ h.delivered, t < token
  settled : h.settled.Nodup ∧ ∀ t ∈ h.settled, t ∈ h.delivered

variable {cfg : Config} {now now' began : Int} {token token' : Nat} {j j' : Job} {h : History} {m : Mutation}

theorem Sound.mono (hs : Sound now token j h) (hnow : now ≤ now') (htoken : token ≤ token') : Sound now' token' j h where
  known := hs.known
  fresh := hs.fresh
  active := hs.active
  retryable := hs.retryable
  bound := hs.bound
  ended hne t u hlease := (hs.ended hne t u hlease).imp_right fun hc => hc.imp_right fun hu => Int.le_trans hu hnow
  delivered := ⟨hs.delivered.1, fun t ht => Nat.lt_of_lt_of_le (hs.delivered.2 t ht) htoken⟩
  settled := hs.settled

def Job.staged (j : Job) : Prop := (j.state = .available ∨ j.state = .scheduled) ∧ j.attempt = 0

theorem staged_of_stageEnqueueJob {x : EnqueueInput} (hx : stageEnqueueJob cfg now x = .ok j) : j.staged := by
  unfold stageEnqueueJob transition TransitionInput.result jobTransitions at hx
  cases hx
  refine ⟨?_, rfl⟩
  split
  · exact .inr rfl
  · exact .inl rfl

theorem staged_of_stageEnqueueJobs {xs : List EnqueueInput} {js : List Job} (hxs : stageEnqueueJobs cfg now xs = .ok js) :
    ∀ j ∈ js, j.staged := by
  induction xs generalizing js with
  | nil =>
    cases hxs
    exact fun _ hj => absurd hj not_mem_nil
  | cons x xs ih =>
    unfold stageEnqueueJobs at hxs
    split at hxs
    · next j js' hj hjs =>
      cases hxs
      intro k hk
      rcases mem_cons.1 hk with rfl | hk'
      · exact staged_of_stageEnqueueJob hj
      · exact ih hjs k hk'
    · cases hxs
    · cases hxs

theorem Sound.staged (hj : j.staged) : Sound now token j ⟨[], [], none⟩ := by
  have hne : ∀ s, j.state = s → s = .available ∨ s = .scheduled := fun s hs => hs ▸ hj.1
  refine ⟨⟨fun hs => ?_, fun hs => ?_⟩, fun _ => ⟨hj.2, rfl⟩, fun hs => ?_, fun hs => ?_,
    Nat.zero_le _, nofun, ⟨.nil, nofun⟩, .nil, nofun⟩
  all_goals exact absurd (hne _ hs) (by decide)

theorem Sound.lease (hs : Sound now token j h) (hj : j.fetchable began) (worker : Nat) (visibility : Int) :
    Sound now (token + 1) (j.lease began token worker visibility)
      ⟨h.delivered ++ [token], h.settled, some (token, began + visibility)⟩ := by
  have hnew : token ∉ h.delivered := fun ht => Nat.lt_irrefl _ (hs.delivered.2 token ht)
  -- the attempt is the number of deliveries, and there was one left
  have hcount : (if j.state = .active then j.attempt + 1 else max j.attempt 1) = h.delivered.length + 1 ∧
      h.delivered.length + 1 ≤ max 1 j.maxAttempts := by
    obtain ⟨hstate, -, -, hleft⟩ := hj
    by_cases hactive : j.state = .active
    · rw [if_pos hactive]
      have hattempt := (hs.active hactive).1
      have hlt : ¬ j.maxAttempts ≤ j.attempt := fun hle => hleft ⟨hactive, hle⟩
      omega
    · rw [if_neg hactive]
      by_cases hretry : j.state = .retryable
      · have hattempt := hs.retryable hretry
        omega
      · have hfresh : j.state = .available ∨ j.state = .scheduled := by
          simp only [mem_cons, not_mem_nil, or_false] at hstate
          tauto
        obtain ⟨hattempt, rfl⟩ := hs.fresh hfresh
        simp only [hattempt, length_nil]
        omega
  refine ⟨⟨nofun, nofun⟩, nofun, fun _ => ⟨?_, token, began + visibility, rfl, rfl, ?_, rfl, ?_⟩, nofun, ?_, nofun, ⟨?_, ?_⟩,
    hs.settled.1, fun t ht => mem_append_left _ (hs.settled.2 t ht)⟩
  · simpa [Job.lease] using hcount.1
  · simp
  · exact fun ht => hnew (hs.settled.2 token ht)
  · simpa [Job.lease] using hcount.2
  · exact nodup_append.2 ⟨hs.delivered.1, nodup_singleton _, fun a ha b hb hab => by
      rw [mem_singleton.1 hb] at hab
      exact hnew (hab ▸ ha)⟩
  · exact Conc.forall_push (fun t ht => Nat.lt_succ_of_lt (hs.delivered.2 t ht)) (Nat.lt_succ_self _)

theorem Sound.extend (hs : Sound now token j h) (hactive : j.state = .active) {t : Nat} (ht : j.leaseToken = some t) (worker : Nat)
    (visibility : Int) : Sound now token (j.extend began worker visibility) { h with lease := some (t, began + visibility) } where
  known := hs.known
  fresh hf := by
    change j.state = _ ∨ j.state = _ at hf
    rw [hactive] at hf
    exact absurd hf (by decide)
  active _ := by
    obtain ⟨hattempt, t', u, ht', -, hlast, -, hnot⟩ := hs.active hactive
    cases ht.symm.trans ht'
    exact ⟨hattempt, t, _, ht, rfl, hlast, rfl, hnot⟩
  retryable := hs.retryable
  bound := hs.bound
  ended hne := absurd hactive hne
  delivered := hs.delivered
  settled := hs.settled

theorem Sound.discard (hs : Sound now token j h) (hj : j.spent began) (hbegan : began ≤ now) : Sound now token (j.discard began) h where
  known := ⟨nofun, nofun⟩
  fresh hf := absurd hf (by simp [Job.discard])
  active hf := nomatch hf
  retryable hf := nomatch hf
  bound := hs.bound
  ended _ t u hlease := by
    obtain ⟨hactive, huntil, -⟩ := hj
    obtain ⟨-, t', u', -, hu, -, hl, -⟩ := hs.active hactive
    cases hl.symm.trans hlease
    exact .inr (.inr (Int.le_trans (huntil u hu) hbegan))
  delivered := hs.delivered
  settled := hs.settled

/-! ## `mutateJob` -/

structure Owned (m : Mutation) (now : Int) (j : Job) : Prop where
  active : j.state = .active
  token : j.leaseToken.getD 0 = m.leaseToken
  live : j.leaseLive now

structure Mutated (m : Mutation) (now : Int) (j j' : Job) : Prop where
  id : j'.id = j.id
  queue : j'.queue = j.queue
  maxAttempts : j'.maxAttempts = j.maxAttempts
  cancel : m.event = .cancel → j'.state = .cancelled ∧ j.state.terminal = false
  owned : m.event ≠ .cancel → Owned m now j
  ack : m.event = .ack → j'.state = .completed
  nack : m.event = .nack → j'.state = .discarded ∨ (j'.state = .retryable ∧ j'.attempt = j.attempt + 1 ∧ j'.attempt ≤ j.maxAttempts)
  other : m.event = .ack ∨ m.event = .nack ∨ m.event = .cancel

theorem transition_source {x : TransitionInput} {t : TransitionResult} (ht : transition cfg x = .ok t) :
    (∃ sources, jobTransitions x.event = some sources ∧ x.state ∈ sources) ∧ x.result cfg = .ok t := by
  unfold transition at ht
  split at ht
  · cases ht
  · next sources hsources =>
    split at ht
    · next hmem => exact ⟨⟨sources, hsources, hmem⟩, ht⟩
    · cases ht

theorem mutated_of_mutate (hm : mutate cfg m now j = .ok j') : Mutated m now j j' := by
  unfold mutate at hm
  split at hm
  · cases hm
  · next t ht =>
    obtain ⟨⟨sources, hsources, hmem⟩, hresult⟩ := transition_source ht
    split at hm
    · cases hm
    · next hown =>
      obtain ⟨id, leaseToken, event, payload, retryable⟩ := m
      cases event
      case cancel =>
        cases hsources
        cases hresult
        cases hm
        refine ⟨rfl, rfl, rfl, fun _ => ⟨rfl, ?_⟩, fun hne => absurd rfl hne, nofun, nofun, .inr (.inr rfl)⟩
        simp only [mem_cons, not_mem_nil, or_false] at hmem
        rcases hmem with hs | hs | hs | hs | hs <;> rw [hs] <;> rfl
      case ack =>
        cases hsources
        cases hresult
        cases hm
        have howned := not_or.1 fun hbad => hown ⟨nofun, hbad⟩
        exact ⟨rfl, rfl, rfl, nofun, fun _ => ⟨mem_singleton.1 hmem, not_not.1 howned.1, not_not.1 howned.2⟩, fun _ => rfl, nofun,
          .inl rfl⟩
      case nack =>
        cases hsources
        have howned := not_or.1 fun hbad => hown ⟨nofun, hbad⟩
        have howned' : Owned ⟨id, leaseToken, .nack, payload, retryable⟩ now j :=
          ⟨mem_singleton.1 hmem, not_not.1 howned.1, not_not.1 howned.2⟩
        unfold TransitionInput.result at hresult
        dsimp only at hresult
        split at hresult
        · next hretry =>
          cases hresult
          cases hm
          exact ⟨rfl, rfl, rfl, nofun, fun _ => howned', nofun, fun _ => .inr ⟨rfl, rfl, hretry.2⟩, .inr (.inl rfl)⟩
        · cases hresult
          cases hm
          exact ⟨rfl, rfl, rfl, nofun, fun _ => howned', nofun, fun _ => .inl rfl, .inr (.inl rfl)⟩
      all_goals cases hm

theorem Mutated.state_ne_active (hm : Mutated m now j j') : j'.state ≠ .active := by
  rcases hm.other with he | he | he
  · simp [hm.ack he]
  · rcases hm.nack he with hs | ⟨hs, -⟩ <;> simp [hs]
  · simp [(hm.cancel he).1]

/-- What has happened to the job once the mutation is committed. -/
def History.settle (h : History) (m : Mutation) : History :=
  if m.event = .cancel then h else { h with settled := h.settled ++ [m.leaseToken] }

theorem Sound.mutate (hs : Sound now token j h) (hm : Mutated m began j j') : Sound now token j' (h.settle m) := by
  unfold History.settle
  by_cases hcancel : m.event = .cancel
  · rw [if_pos hcancel]
    have hstate := (hm.cancel hcancel).1
    refine ⟨?_, ?_, ?_, ?_, hm.maxAttempts ▸ hs.bound, fun _ _ _ _ => .inr (.inl hstate), hs.delivered, hs.settled⟩
    all_goals simp [hstate]
  · rw [if_neg hcancel]
    obtain ⟨hactive, htoken, -⟩ := hm.owned hcancel
    obtain ⟨hattempt, t, u, ht, -, hlast, hlease, hnot⟩ := hs.active hactive
    have hmt : m.leaseToken = t := by rw [← htoken, ht, Option.getD_some]
    have hmem : t ∈ h.delivered := mem_of_getLast? hlast
    -- an ack or a nack takes the job out of `active`, and a retry counts the delivery to come
    have hstate : (j'.state = .completed ∨ j'.state = .discarded) ∨
        (j'.state = .retryable ∧ j'.attempt = j.attempt + 1 ∧ j'.attempt ≤ j.maxAttempts) := by
      rcases hm.other with he | he | he
      · exact .inl (.inl (hm.ack he))
      · exact (hm.nack he).imp_left .inr
      · exact absurd he hcancel
    refine ⟨?_, ?_, ?_, ?_, hm.maxAttempts ▸ hs.bound, ?_, hs.delivered, ?_, ?_⟩
    · rcases hstate with (h1 | h1) | ⟨h1, -⟩ <;> simp [h1]
    · rcases hstate with (h1 | h1) | ⟨h1, -⟩ <;> simp [h1]
    · rcases hstate with (h1 | h1) | ⟨h1, -⟩ <;> simp [h1]
    · intro hr
      rcases hstate with (h1 | h1) | ⟨-, h2, h3⟩
      · exact absurd (h1.symm.trans hr) nofun
      · exact absurd (h1.symm.trans hr) nofun
      · exact ⟨by rw [h2, hattempt], hm.maxAttempts ▸ h3⟩
    · intro _ t' u' hl
      cases hlease.symm.trans hl
      exact .inl (mem_append_right _ (mem_singleton.2 hmt.symm))
    · exact nodup_append.2 ⟨hs.settled.1, nodup_singleton _, fun a ha b hb hab => by
        rw [mem_singleton.1 hb, hmt] at hab
        exact hnot (hab ▸ ha)⟩
    · exact Conc.forall_push hs.settled.2 (hmt.symm ▸ hmem)

end Pgvs3.Jobs
