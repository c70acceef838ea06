import Pgvs3.Queue.JobWrites
/-!
# The life of a job

`change_of_step` says who can change a committed row: a request that carries its current token, a
cancel, a fetch or a discard once its lease is over, and the expiry sweep.
-/

namespace Pgvs3.Jobs

open List

variable {w w' : World} {a : Act} {r : Row} {j : Job} {c : Call}

def Call.Carries (id token : Nat) : Call → Prop
  | .read m _ _ => m.id = id ∧ m.event ≠ .cancel ∧ m.leaseToken = token
  | .extending h _ _ => (id, token) ∈ h.leases
  | _ => False

def Call.Cancels (id : Nat) : Call → Prop
  | .read m _ _ => m.id = id ∧ m.event = .cancel
  | _ => False

instance (id token : Nat) (c : Call) : Decidable (c.Carries id token) := by
  unfold Call.Carries
  split <;> infer_instance

instance (id : Nat) (c : Call) : Decidable (c.Cancels id) := by
  unfold Call.Cancels
  split <;> infer_instance

inductive Change (w : World) (a : Act) (w' : World) (r : Row) : Prop
  | carried (c : Call) (t : Nat) : w.call a = some c → c.Carries r.job.id t → r.job.state = .active → r.job.leaseToken = some t →
      Change w a w' r
  | cancelled (c : Call) : w.call a = some c → c.Cancels r.job.id → r.job.state.terminal = false → Change w a w' r
  /-- A fetch or a discard. -/
  | lapsed (c : Call) : w.call a = some c → (∀ id t, ¬ c.Carries id t) → r.job.state.terminal = false → (r.job.state = .active → ∀ u ∈ r.job.leaseUntil, u ≤ w.now) → Change w a w' r
  | removed (victims : List Job) : w.call a = some (.expire victims) → r.job ∈ victims → r ∈ w'.removed → Change w a w' r

def Kept (w' : World) (r : Row) : Prop := ∃ r' ∈ w'.rows, r'.job = r.job

instance (w' : World) (r : Row) : Decidable (Kept w' r) := inferInstanceAs (Decidable (∃ r' ∈ w'.rows, r'.job = r.job))

theorem kept_map {g : Row → Row} {rows : List Row} (hr : r ∈ rows) (hg : (g r).job = r.job) : ∃ r' ∈ rows.map g, r'.job = r.job :=
  ⟨g r, mem_map_of_mem hr, hg⟩

theorem change_of_mutated {m : Mutation} {began : Int} {queue i : Nat} {skip : List Nat} (hinv : Inv w)
    (hi : w.calls[i]? = some (.read m queue began)) (hr : r ∈ w.rows) (hid : r.job.id = m.id) (hm : Mutated m began r.job j) :
    Change w (.run i skip) w' r := by
  by_cases hcancel : m.event = .cancel
  · exact .cancelled _ hi ⟨hid.symm, hcancel⟩ (hm.cancel hcancel).2
  · obtain ⟨hactive, htoken, -⟩ := hm.owned hcancel
    obtain ⟨-, t, -, ht, -⟩ := (hinv.rows r hr).active hactive
    rw [ht, Option.getD_some] at htoken
    exact .carried _ t hi ⟨hid.symm, hcancel, htoken.symm⟩ hactive ht

theorem change_of_step (hinv : Inv w) (hstep : Step w a w') (hr : r ∈ w.rows) : Kept w' r ∨ Change w a w' r := by
  cases hstep with
  | connect | elapse | place | insert => exact .inl ⟨r, hr, rfl⟩
  | fail _ i c hc =>
    refine .inl (kept_map hr ?_)
    unfold Row.release
    split <;> rfl
  | enqueued => exact .inl ⟨r, mem_append_left _ hr, rfl⟩
  | lock | validate | extend | fetchQueue =>
    refine .inl (kept_map hr ?_)
    split <;> rfl
  | update i skip m queue began x j hi hx hj =>
    obtain ⟨hmem, his⟩ := mem_of_find hx
    rw [(hinv.read_row hi hmem his.2).2.1] at hj
    by_cases hisr : r.is queue m.id
    · cases hinv.row_eq hr hmem (hisr.2.trans his.2.symm)
      exact .inr (change_of_mutated hinv hi hr hisr.2 (mutated_of_mutate hj))
    · exact .inl (kept_map hr (by rw [if_neg hisr]))
  | fetched i skip f began todo out hi =>
    have hbegan : began ≤ w.now := hinv.calls _ (mem_of_getElem? hi)
    by_cases hheld : r.heldBy i
    · rcases hinv.seen_cases hi hr (freeFor_of_heldBy hheld) with ⟨hnone, -⟩ | ⟨l, -, -, -, -, -, hopen, hover⟩
      · obtain ⟨l, hl, -⟩ := hheld
        rw [hnone] at hl
        cases hl
      · exact .inr (.lapsed _ hi (fun _ _ => id) hopen fun hactive u hu => Int.le_trans (hover hactive u hu) hbegan)
    · exact .inl (kept_map hr (congrArg Row.job (hinv.fetched_other hi hr hheld)))
  | extended i skip h began hi =>
    by_cases hheld : r.heldBy i
    · rcases hinv.seen_cases hi hr (freeFor_of_heldBy hheld) with ⟨hnone, -⟩ | ⟨l, hl, hh, -, hview | ⟨hactive, ⟨t, ht, hmem⟩, -⟩⟩
      · obtain ⟨l, hl, -⟩ := hheld
        rw [hnone] at hl
        cases hl
      · exact .inl (kept_map hr (by rw [Inv.commit_held hl hh]; exact hview))
      · exact .inr (.carried _ t hi hmem hactive ht)
    · exact .inl (kept_map hr (congrArg Row.job (Inv.commit_of_not_heldBy hheld)))
  | remove i skip victims hi hfree =>
    by_cases hv : r.job ∈ victims
    · refine .inr (.removed victims hi hv (mem_append_right _ ?_))
      exact mem_filter.2 ⟨hr, decide_eq_true hv⟩
    · exact .inl ⟨r, mem_filter.2 ⟨hr, decide_eq_true hv⟩, rfl⟩
  | discard i skip queue limit began hi =>
    have hbegan : began ≤ w.now := hinv.calls _ (mem_of_getElem? hi)
    by_cases hmem : r ∈ w.spentRows queue limit began skip
    · obtain ⟨-, -, hactive, huntil, -⟩ := Inv.mem_spentRows hmem
      exact .inr (.lapsed _ hi (fun _ _ => id) (by rw [hactive]; rfl) fun _ u hu => Int.le_trans (huntil u hu) hbegan)
    · exact .inl (kept_map hr (by rw [if_neg hmem]))

theorem removed_of_step (hstep : Step w a w') :
    w'.removed = w.removed ∨ ∃ victims, w.call a = some (.expire victims) ∧
      w'.removed = w.removed ++ w.rows.filter (·.job ∈ victims) := by
  cases hstep with
  | remove i skip victims hi => exact .inr ⟨victims, hi, rfl⟩
  | _ => exact .inl rfl

/-- The job is as it was, in its table or where `ExpireMessages` puts what it deletes. -/
def Stays (j : Job) (w : World) : Prop := ∃ r ∈ w.rows ++ w.removed, r.job = j

theorem stays_next (hj : j.state.terminal = true) (hinv : Inv w) (hstays : Stays j w) (hn : next w a = some w') :
    Stays j w' := by
  have hstep := step_of_next hn
  obtain ⟨r, hr, rfl⟩ := hstays
  rcases mem_append.1 hr with hr' | hr'
  · rcases change_of_step hinv hstep hr' with ⟨r', hr'', hjob⟩ | hchange
    · exact ⟨r', mem_append_left _ hr'', hjob⟩
    · cases hchange with
      | carried c t hc hcarries hactive =>
        rw [hactive] at hj
        cases hj
      | cancelled _ _ _ hopen | lapsed _ _ _ hopen => exact absurd (hopen.symm.trans hj) nofun
      | removed victims hc hv hmem => exact ⟨r, mem_append_right _ hmem, rfl⟩
  · refine ⟨r, mem_append_right _ ?_, rfl⟩
    obtain heq | ⟨victims, -, heq⟩ := removed_of_step hstep
    · exact heq ▸ hr'
    · rw [heq]
      exact mem_append_left _ hr'

theorem stays_run (hj : j.state.terminal = true) {acts : List Act} (hinv : Inv w) (hstays : Stays j w)
    (hrun : machine.run w acts = some w') : Stays j w' := by
  have hstep : ∀ v b v', Inv v ∧ Stays j v → machine.next v b = some v' → Inv v' ∧ Stays j v' :=
    fun v b v' hv hn => ⟨inv_next hv.1 hn, stays_next hj hv.1 hv.2 hn⟩
  have hboth := Conc.Machine.run_invariant hstep (And.intro hinv hstays) hrun
  exact hboth.2

structure Lifecycle (w : World) : Prop where
  /-- `FetchJobs` has returned no job more often than `max(1, max_attempts)` times. -/
  deliveries : ∀ r ∈ w.rows ++ w.removed, r.hist.delivered.length ≤ max 1 r.job.maxAttempts
  attempt : ∀ r ∈ w.rows ++ w.removed, r.job.state = .active → r.job.attempt = r.hist.delivered.length
  /-- Every delivery has its own token, and at most one ack or nack with this token has
  succeeded. -/
  settled : ∀ r ∈ w.rows ++ w.removed, r.hist.delivered.Nodup ∧ r.hist.settled.Nodup ∧ ∀ t ∈ r.hist.settled, t ∈ r.hist.delivered
  /-- A request that changes a job, or removes it, carries the token of its last delivery, if it
  carries one. -/
  current : ∀ a w', next w a = some w' → ∀ r ∈ w.rows, ¬ Kept w' r → ∀ c ∈ w.call a, ∀ t, c.Carries r.job.id t →
    r.hist.delivered.getLast? = some t
  /-- A job that is completed, cancelled or discarded never changes again. -/
  terminal : ∀ acts w', machine.run w acts = some w' → ∀ r ∈ w.rows, r.job.state.terminal = true → Stays r.job w'

/-- A request carries one token for a job. -/
theorem Inv.carries_eq (hinv : Inv w) (hc : w.call a = some c) {id t t' : Nat} (ht : c.Carries id t) (ht' : c.Carries id t') :
    t = t' := by
  cases c with
  | read m queue began => exact ht.2.2.symm.trans ht'.2.2
  | extending h began todo =>
    cases a with
    | run i skip =>
      have hcovers := (hinv.calls _ (mem_of_getElem? hc)).2
      exact congrArg Prod.snd (inj_on_of_nodup_map hcovers.nodup ht ht' rfl)
    | _ => cases hc
  | _ => exact ht.elim

theorem Inv.current (hinv : Inv w) (hn : next w a = some w') (hr : r ∈ w.rows) (hchanged : ¬ Kept w' r) (hc : w.call a = some c)
    {t : Nat} (ht : c.Carries r.job.id t) : r.hist.delivered.getLast? = some t := by
  cases (change_of_step hinv (step_of_next hn) hr).resolve_left hchanged with
  | carried d t' hd hcarries hactive htoken =>
    obtain ⟨-, t'', -, ht'', -, hlast, -⟩ := (hinv.rows r hr).active hactive
    cases htoken.symm.trans ht''
    cases hd.symm.trans hc
    rw [hlast, hinv.carries_eq hc hcarries ht]
  | cancelled d hd hcancels =>
    cases hd.symm.trans hc
    cases c with
    | read m queue began => exact absurd hcancels.2 ht.2.1
    | _ => exact hcancels.elim
  | lapsed d hd hcarries =>
    cases hd.symm.trans hc
    exact absurd ht (hcarries _ _)
  | removed victims hd =>
    cases hd.symm.trans hc
    exact ht.elim

/-- **The life of a job.** In every interleaving. -/
theorem lifecycle (cfg : Config) (now : Int) (acts : List Act) (w : World) (hrun : machine.run (.init cfg now) acts = some w) :
    Lifecycle w := by
  have hinv : Inv w := inv_run (inv_init cfg now) hrun
  have hsound : ∀ r ∈ w.rows ++ w.removed, Sound w.now w.token r.job r.hist := fun r hr =>
    (mem_append.1 hr).elim (hinv.rows r) (hinv.removed r)
  refine ⟨fun r hr => (hsound r hr).bound, fun r hr hactive => ((hsound r hr).active hactive).1,
    fun r hr => ⟨(hsound r hr).delivered.1, (hsound r hr).settled⟩, ?_, ?_⟩
  · exact fun a w' hn r hr hchanged c hc t ht => hinv.current hn hr hchanged hc ht
  · exact fun acts' w' hrun' r hr hterminal => stays_run hterminal hinv ⟨r, mem_append_left _ hr, rfl⟩ hrun'

/-- A job of queue 1 that may be delivered twice. -/
def twice : EnqueueInput := ⟨7, 1, 2, 0, none, ⟨0, 0, 0⟩, none⟩

def request (i n : Nat) (r : Request) : List Act := .start i r :: List.replicate n (.run i [])

/-- The first worker lets its lease run out, and its ack comes after the job is leased again; the
second worker acks. -/
def redelivered : List Act :=
  [.connect] ++ request 0 2 (.enqueue [twice]) ++ request 0 3 (.fetch ⟨[1], 1, 4, 10⟩) ++ [.elapse 10] ++
    request 0 3 (.fetch ⟨[1], 1, 5, 10⟩) ++ request 0 3 (.ack 7 1 0) ++ request 0 3 (.ack 7 2 0)

theorem acked_after_redelivery : ∃ w, machine.run (.init ⟨0, fun _ _ => 0⟩ 0) redelivered = some w ∧
      (w.rows.map fun r => (r.job.state, r.hist.delivered, r.hist.settled)) = [(.completed, [1, 2], [2])] ∧ Lifecycle w := by
  have hrun : ((machine.run (.init ⟨0, fun _ _ => 0⟩ 0) redelivered).map fun w =>
      w.rows.map fun r => (r.job.state, r.hist.delivered, r.hist.settled)) = some [(.completed, [1, 2], [2])] := by decide +kernel
  obtain ⟨w, hw, hrows⟩ := Option.map_eq_some_iff.1 hrun
  exact ⟨w, hw, hrows, lifecycle _ _ _ w hw⟩

end Pgvs3.Jobs
