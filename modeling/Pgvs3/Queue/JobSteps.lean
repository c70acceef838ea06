import Pgvs3.Queue.JobRows
/-!
# What a step of the job tables can do

`Place` are the steps after which only the place of one call has changed; `Step` are all steps.
`step_of_next` reads them off the step function once, for all invariants.
-/

namespace Pgvs3.Jobs

/-- The call goes from one place to another and touches no row. -/
inductive Place (w : World) : Call → Call → Prop
  | enqueue {c : Call} (inputs : List EnqueueInput) (jobs : List Job) : c.free = true →
      stageEnqueueJobs w.cfg w.now inputs = .ok jobs → Place w c (.enqueue jobs [])
  | resolved {c : Call} (m : Mutation) (queue : Nat) : c.free = true → Place w c (.resolved m queue)
  | fetch {c : Call} (f : Fetch) : c.free = true → Place w c (.fetch f)
  | heartbeat {c : Call} (h : Heartbeat) (byQueue : List (Nat × List (Nat × Nat))) : c.free = true → (h.leases.map (·.1)).Nodup →
      w.resolveLeaseQueues h.leases = some byQueue → Place w c (.heartbeat h byQueue)
  | expire {c : Call} (queue limit : Nat) : c.free = true → Place w c (.expire (w.victims queue limit))
  | discard {c : Call} (queue limit : Nat) : c.free = true → Place w c (.discard queue limit w.now)
  /-- The call ends before it has a lock. -/
  | refused {c : Call} (x : Answer) : (c.free = true ∨ (∃ todo done, c = .enqueue todo done) ∨ ∃ m queue began, c = .begun m queue began) →
      Place w c (.answered x)
  | begin (m : Mutation) (queue : Nat) : Place w (.resolved m queue) (.begun m queue w.now)
  | fetching (f : Fetch) : Place w (.fetch f) (.fetching f w.now f.queues [])
  | validating (h : Heartbeat) (byQueue : List (Nat × List (Nat × Nat))) :
      Place w (.heartbeat h byQueue) (.validating h w.now byQueue byQueue)
  | extending (h : Heartbeat) (began : Int) (byQueue : List (Nat × List (Nat × Nat))) :
      Place w (.validating h began [] byQueue) (.extending h began byQueue)

inductive Step (w : World) : Act → World → Prop
  | connect : Step w .connect { w with calls := w.calls ++ [.idle] }
  | elapse (time : Nat) : Step w (.elapse time) { w with now := w.now + time }
  | place (a : Act) (i : Nat) {c c' : Call} : w.calls[i]? = some c → Place w c c' → Step w a (w.set i c')
  | fail (a : Act) (i : Nat) (c : Call) : c.free = true → Step w a (w.fail i c)
  | insert (i : Nat) (skip : List Nat) (j : Job) (todo done : List Job) : w.calls[i]? = some (.enqueue (j :: todo) done) →
      (∀ r ∈ w.rows, r.job.id ≠ j.id) → (∀ c ∈ w.calls, j.id ∉ c.inserted) →
      Step w (.run i skip) { w.set i (.enqueue todo (done ++ [{ j with seq := w.seq }])) with seq := w.seq + 1 }
  | enqueued (i : Nat) (skip : List Nat) (done : List Job) : w.calls[i]? = some (.enqueue [] done) →
      Step w (.run i skip) { w.set i (.answered (.jobs done)) with rows := w.rows ++ done.map fun j => ⟨j, none, ⟨[], [], none⟩⟩ }
  | lock (i : Nat) (skip : List Nat) (m : Mutation) (queue : Nat) (began : Int) (r : Row) : w.calls[i]? = some (.begun m queue began) →
      w.rows.find? (·.is queue m.id) = some r → r.freeFor i →
      Step w (.run i skip)
        { w.set i (.read m queue began) with rows := w.rows.map fun x => if x.is queue m.id then x.put i (x.seen i) else x }
  | update (i : Nat) (skip : List Nat) (m : Mutation) (queue : Nat) (began : Int) (r : Row) (j : Job) :
      w.calls[i]? = some (.read m queue began) → w.rows.find? (·.is queue m.id) = some r → mutate w.cfg m began (r.seen i) = .ok j →
      Step w (.run i skip) { w.set i (.answered (.job j (if m.event = .cancel then some (r.seen i).state else none))) with
          rows := w.rows.map fun x => if x.is queue m.id then (x.put i j).settle i m else x }
  | fetchQueue (i : Nat) (skip : List Nat) (f : Fetch) (began : Int) (queue : Nat) (todo : List Nat) (out : List Job) :
      w.calls[i]? = some (.fetching f began (queue :: todo) out) → Step w (.run i skip) (w.fetchQueue i f began queue todo out skip)
  | fetched (i : Nat) (skip : List Nat) (f : Fetch) (began : Int) (todo : List Nat) (out : List Job) :
      w.calls[i]? = some (.fetching f began todo out) → Step w (.run i skip) (w.fetched i out)
  | validate (i : Nat) (skip : List Nat) (h : Heartbeat) (began : Int) (queue : Nat) (leases : List (Nat × Nat))
      (todo byQueue : List (Nat × List (Nat × Nat))) : w.calls[i]? = some (.validating h began ((queue, leases) :: todo) byQueue) →
      (∀ r ∈ w.rows, World.named queue leases r → r.freeFor i) →
      Step w (.run i skip) { w.set i (.validating h began todo byQueue) with
          rows := w.rows.map fun r => if World.named queue leases r then r.put i (r.seen i) else r }
  | extend (i : Nat) (skip : List Nat) (h : Heartbeat) (began : Int) (queue : Nat) (leases : List (Nat × Nat))
      (todo : List (Nat × List (Nat × Nat))) : w.calls[i]? = some (.extending h began ((queue, leases) :: todo)) →
      (∀ r ∈ w.rows, World.extendable i queue leases r → r.freeFor i) →
      Step w (.run i skip) { w.set i (.extending h began todo) with
          rows := w.rows.map fun r =>
            if World.extendable i queue leases r then r.put i ((r.seen i).extend began h.worker h.visibility) else r }
  | extended (i : Nat) (skip : List Nat) (h : Heartbeat) (began : Int) : w.calls[i]? = some (.extending h began []) →
      Step w (.run i skip)
        { w.set i (.answered (.ids ((h.leases.map (·.1)).insertionSort (· ≤ ·)))) with rows := w.rows.map (·.commit i) }
  | remove (i : Nat) (skip : List Nat) (victims : List Job) : w.calls[i]? = some (.expire victims) →
      (∀ r ∈ w.rows, r.job ∈ victims → r.lock = none) →
      Step w (.run i skip) { w.set i (.answered (.count (w.rows.filter (·.job ∈ victims)).length)) with
          rows := w.rows.filter (·.job ∉ victims)
          removed := w.removed ++ w.rows.filter (·.job ∈ victims) }
  | discard (i : Nat) (skip : List Nat) (queue limit : Nat) (began : Int) : w.calls[i]? = some (.discard queue limit began) →
      Step w (.run i skip) (w.discardRows i queue limit began skip)

def World.call (w : World) : Act → Option Call
  | .run i _ => w.calls[i]?
  | _ => none

section

variable {w w' : World} {a : Act} {i : Nat} {skip : List Nat} {c : Call}

theorem step_of_mutateJob (hi : w.calls[i]? = some c) (hc : c.free = true) (m : Mutation) : Step w a (w.mutateJob i m) := by
  unfold World.mutateJob
  split
  · exact .place a i hi (.refused _ (.inl hc))
  · exact .place a i hi (.resolved m _ hc)

theorem step_of_start {r : Request} (hi : w.calls[i]? = some c) (hc : c.free = true) (hn : w.start i r = some w') : Step w a w' := by
  cases r with
  | enqueue inputs =>
    simp only [World.start] at hn
    split at hn
    · next jobs hjobs =>
      cases hn
      exact .place a i hi (.enqueue inputs jobs hc hjobs)
    · cases hn
      exact .place a i hi (.refused _ (.inl hc))
  | fetch f =>
    simp only [World.start] at hn
    split at hn
    · cases hn
      exact .place a i hi (.refused _ (.inl hc))
    · cases hn
      exact .place a i hi (.fetch f hc)
  | cancel | ack | nack =>
    cases hn
    exact step_of_mutateJob hi hc _
  | heartbeat h =>
    simp only [World.start] at hn
    split at hn
    · next hnodup =>
      split at hn
      · next byQueue hby =>
        cases hn
        exact .place a i hi (.heartbeat h byQueue hc hnodup hby)
      · cases hn
        exact .place a i hi (.refused _ (.inl hc))
    · cases hn
  | expireMessages queue limit =>
    cases hn
    exact .place a i hi (.expire queue limit hc)
  | discardExpiredLeases queue limit =>
    cases hn
    exact .place a i hi (.discard queue limit hc)

theorem step_of_exec (hi : w.calls[i]? = some c) (hn : w.exec i skip c = some w') : Step w (.run i skip) w' := by
  unfold World.exec at hn
  split at hn
  · cases hn
  · cases hn
  · next j todo done =>
    unfold World.insert at hn
    split at hn
    · cases hn
      exact .place _ i hi (.refused _ (.inr (.inl ⟨_, _, rfl⟩)))
    · next hid =>
      split at hn
      · cases hn
      · next hfree =>
        cases hn
        refine .insert i skip j todo done hi (fun r hr heq => hid ⟨r.job, ?_, heq⟩) fun c hc hmem => hfree ⟨c, hc, hmem⟩
        exact List.mem_append_left _ (List.mem_map_of_mem hr)
  · cases hn
    exact .enqueued i skip _ hi
  · cases hn
    exact .place _ i hi (.begin _ _)
  · next m queue began =>
    unfold World.lockRow at hn
    split at hn
    · cases hn
      exact .place _ i hi (.refused _ (.inr (.inr ⟨m, queue, began, rfl⟩)))
    · next r hr =>
      split at hn
      · next hfree =>
        cases hn
        exact .lock i skip m queue began r hi hr hfree
      · cases hn
  · next m queue began =>
    unfold World.update at hn
    split at hn
    · cases hn
    · next r hr =>
      split at hn
      · cases hn
        exact .fail _ i _ rfl
      · next j hj =>
        cases hn
        exact .update i skip m queue began r j hi hr hj
  · cases hn
    exact .place _ i hi (.fetching _)
  · split at hn
    · cases hn
      exact .fetched i skip _ _ _ _ hi
    · cases hn
      exact .fetchQueue i skip _ _ _ _ _ hi
  · cases hn
    exact .fetched i skip _ _ _ _ hi
  · cases hn
    exact .place _ i hi (.validating _ _)
  · next h began queue leases todo byQueue =>
    unfold World.validateQueue at hn
    split at hn
    · cases hn
    · next hfree =>
      split at hn
      · cases hn
        exact .fail _ i _ rfl
      · cases hn
        exact .validate i skip h began queue leases todo byQueue hi fun r hr hnamed => not_not.1 fun hnot => hfree ⟨r, hr, hnamed, hnot⟩
  · cases hn
    exact .place _ i hi (.extending _ _ _)
  · next h began queue leases todo =>
    unfold World.extendQueue at hn
    split at hn
    · cases hn
    · next hfree =>
      cases hn
      exact .extend i skip h began queue leases todo hi fun r hr hext => not_not.1 fun hnot => hfree ⟨r, hr, hext, hnot⟩
  · cases hn
    exact .extended i skip _ _ hi
  · next victims =>
    unfold World.remove at hn
    split at hn
    · cases hn
    · next hfree =>
      cases hn
      exact .remove i skip victims hi fun r hr hv => not_not.1 fun hnot => hfree ⟨r, hr, hv, hnot⟩
  · cases hn
    exact .discard i skip _ _ _ hi

theorem step_of_next (hn : next w a = some w') : Step w a w' := by
  cases a with
  | connect =>
    cases hn
    exact .connect
  | elapse time =>
    cases hn
    exact .elapse time
  | start i r =>
    simp only [next] at hn
    split at hn
    · next c hi =>
      split at hn
      · next hc => exact step_of_start hi hc hn
      · cases hn
    · cases hn
  | run i skip =>
    simp only [next] at hn
    split at hn
    · next c hi => exact step_of_exec hi hn
    · cases hn
  | abort i =>
    cases hn
    exact .fail _ i _ rfl

end

end Pgvs3.Jobs
