import Pgvs3.Tier.Fencing.Steps
/-!
# Stale fills are fenced

A write or a delete leaves a tombstone, which the expected version of an older fill does not match;
a retirement ends the fill's lease. The tombstone is a row like others, though: when it is evicted
while an older fill is still in flight, nothing stops the fill
(`evicted_tombstone_admits_stale_fill`).
-/

namespace Pgvs3.Tier

open Conc Sys Outline

namespace Fencing

/-! ## Rules -/

variable {N : Naming} {g : Gateway} {t : Nat} {α : Type} {P : World × Hist → Prop} {Q : α → World × Hist → Prop} {s : Stmt}
  {a : Res} {p : Req Res}

def Kept (t : Nat) (P : World × Hist → Prop) : Prop := ∀ x x', Rely t x x' → P x → P x'

theorem Kept.stable (hP : Kept t P) : (outline N).Stable t P := stable_ofRely hP

theorem kept_true : Kept t fun _ => True := fun _ _ _ _ => trivial

theorem kept_past : Kept t fun x => t ∈ x.2.past := fun _ _ hr h => hr.past h

theorem kept_holds (o : Nat) : Kept t fun x => x.2.holds t = some o := fun _ _ hr h => hr.holds o h

theorem kept_got (o : Nat) : Kept t fun x => (x.2.got o).isSome = true := fun _ _ hr h => hr.got o h

theorem meets_easy {f : s.Ans → Req α} (hs : easy s = true)
    (hf : ∀ r, Shows N t (f r) (fun _ => True) Q) : Shows N t (Tier.ask s >>= f) P Q := by
  refine Meets.own (fun _ _ => True) (fun _ => kept_true) (fun w h r w' hi _ he ha => ?_) hf
  obtain ⟨hi', hr⟩ := step_easy hs hi he ha
  exact ⟨hi', hr, trivial⟩

theorem meets_calm {f : s.Ans → Req α} (hs : calm s = true) (hP : Kept t P)
    (hf : ∀ r, Shows N t (f r) P Q) : Shows N t (Tier.ask s >>= f) P Q := by
  refine Meets.own (fun _ => P) (fun _ => hP) (fun w h r w' hi hw he ha => ?_) hf
  obtain ⟨hi', hr⟩ := step_calm hs hi he ha
  exact ⟨hi', fun v _ => hr v, hP _ _ (hr t) hw⟩

theorem meets_keep {p : Req α} (hp : Asks calm p) (hP : Kept t P) : Shows N t p P fun _ => P := by
  refine Meets.observed_all (Ω := outline N) hP.stable ?_ hp
  intro s hs w h hi hw r w' he ha
  obtain ⟨hi', hr⟩ := step_calm hs hi he ha
  exact ⟨hi', fun v _ => hr v, hP _ _ (hr t) hw⟩

theorem calm_of_quiet (s : Stmt) (hs : s.quiet = true) : calm s = true := by
  cases s <;> first | rfl | cases hs

theorem meets_ret {a : α} (h : ∀ x, P x → Q a x) : Shows N t (pure a) P Q := fun x _ hx => h x hx

theorem meets_done (ha : completes a = false) : Shows N t (pure a) P (Ends t) :=
  meets_ret fun _ _ h => by cases ha.symm.trans h

/-! ## Fills -/

theorem probe_calm : Asks calm probe := by
  refine .stmt rfl fun s => ?_
  split
  · trivial
  · split
    · trivial
    · split <;> trivial

theorem meets_acquireFill : ∀ n, ∀ {P : World × Hist → Prop}, Shows N t (acquireFill n) P
    fun e x => ∀ owner, e = .ok owner → x.2.holds t = some owner
  | 0, _ => meets_ret fun _ _ => nofun
  | n + 1, _ => by
    refine ((meets_keep probe_calm kept_true).pre fun _ _ _ => trivial).bind fun p => ?_
    split
    · exact meets_ret fun _ _ => nofun
    · refine Meets.own (fun r x => ∀ owner, r = some (some owner) → x.2.holds t = some owner)
        (fun r x x' hr h owner ho => hr.holds owner (h owner ho)) (fun w h r w' hi _ he ha => ?_) fun r => ?_
      · obtain ⟨hi', hr⟩ := step_easy rfl hi he ha
        refine ⟨hi', hr, fun owner ho => ?_⟩
        subst ho
        exact upd_self _ _ _
      · split
        · exact meets_ret fun _ _ => nofun
        · exact meets_acquireFill n
        · next owner =>
          refine Meets.pre (fun x _ hx => hx owner rfl) ?_
          refine (meets_keep probe_calm (kept_holds owner)).bind fun p => ?_
          split
          · exact meets_easy rfl fun _ => meets_ret fun _ _ => nofun
          · exact meets_ret fun x hx o ho => by cases ho; exact hx

theorem meets_fetch (owner : Nat) : Shows N t (fetch N g owner) (fun x => x.2.holds t = some owner) fun _ _ => True := by
  refine Meets.own (fun _ x => (x.2.got owner).isSome = true) (fun _ => kept_got owner) (fun w h r w' hi hw he ha => ?_) fun r => ?_
  · obtain ⟨hi', hr⟩ := step_easy rfl hi he ha
    refine ⟨hi', hr, ?_⟩
    simp only [observer, Hist.learn, Hist.track, Hist.ask, show h.holds t = some owner from hw, upd_self, Option.isSome_some]
  · split
    · refine meets_calm rfl (kept_got owner) fun now => ?_
      refine Meets.own (fun _ _ => True) (fun _ => kept_true) (fun w h r w' hi hw he ha => ?_) fun a => ?_
      · obtain ⟨hi', hr⟩ := step_fill hi hw he ha
        exact ⟨hi', fun v _ => hr v, trivial⟩
      · split
        · exact meets_ret fun _ h => h
        · exact meets_ret fun _ h => h
        · refine meets_easy rfl fun s => ?_
          split
          · exact meets_ret fun _ h => h
          · split <;> exact meets_ret fun _ h => h
    · exact meets_ret fun _ _ => trivial
    · exact meets_ret fun _ _ => trivial

theorem meets_fillOnce (n : Nat) : Shows N t (fillOnce N g n) P fun _ _ => True := by
  refine meets_easy rfl fun _ => (meets_acquireFill n).bind fun a => ?_
  split
  · exact meets_easy rfl fun _ => meets_ret fun _ h => h
  · next owner =>
    refine ((meets_fetch owner).pre fun x _ hx => hx owner rfl).bind fun r => ?_
    exact meets_easy rfl fun _ => meets_easy rfl fun _ => meets_easy rfl fun _ => meets_ret fun _ h => h

theorem meets_coalesceFill (n : Nat) : Shows N t (coalesceFill N g n) P fun _ _ => True := by
  refine meets_easy rfl fun b => ?_
  cases b with
  | true => exact (meets_fillOnce n).bind fun f => meets_easy rfl fun _ => meets_ret fun _ h => h
  | false => exact meets_easy rfl fun f => meets_ret fun _ h => h

/-! ## Open -/

theorem meets_built (hp : Prog.Built (fun _ p => ∀ P, Shows N t p P fun _ _ => True) (·.answers = true) p) : Shows N t p P (Ends t) := by
  induction hp generalizing P with
  | @ret a h => exact meets_done (by cases a <;> first | rfl | cases h)
  | bind hq _ ih => exact (hq P).bind fun b => ih b

theorem easy_of_looks (s : Stmt) (hs : s.looks = true) : easy s = true := by
  cases s with
  | db u | attempt u => cases u <;> first | rfl | cases hs
  | _ => rfl

theorem meets_looks (s : Stmt) (hs : s.looks = true) (P : World × Hist → Prop) : Shows N t (Tier.ask s) P fun _ _ => True :=
  meets_easy (easy_of_looks s hs) fun _ => meets_ret fun _ h => h

/-! ## Writes -/

theorem kept_ends (a : Res) : Kept t (Ends t a) := fun _ _ hr h hc => hr.past (h hc)

theorem meets_past : Shows N t (pure a) (fun x => t ∈ x.2.past) (Ends t) :=
  meets_ret fun _ hx _ => hx

theorem routine : Routine (outline N) (policy N) t (fun _ => True) (Ends t) where
  before hp := meets_keep (hp.mono calm_of_quiet) kept_true
  after a _ _ hp := meets_keep (hp.mono calm_of_quiet) (kept_ends a)
  refused _ _ := ⟨nofun, nofun, nofun⟩

/-- A fence in a statement of its own: the policy does not lose it. -/
theorem meets_fenceReadCache : Shows N t (fenceReadCache N) P fun _ x => t ∈ x.2.past := by
  refine meets_easy rfl fun now => Meets.own (fun _ x => t ∈ x.2.past) (fun _ => kept_past) (fun w h r w' hi _ he ha => ?_)
    fun _ => meets_ret fun _ hx => hx
  obtain ⟨hi', hr⟩ := step_easy rfl hi he ha
  cases r with
  | none => exact absurd ha id
  | some a => exact ⟨hi', hr, past_fence he⟩

theorem storeSpooled_calm (k : PubKind) (body : Body) : Asks calm (storeSpooled N g k body) :=
  .stmt rfl fun _ => .stmt rfl fun _ => trivial

theorem meets_uploadPending (body : Body) : Shows N t (uploadPending N g body) P (Ends t) := by
  refine ((meets_keep (storeSpooled_calm _ _) kept_true).pre fun _ _ _ => trivial).bind fun r => ?_
  split
  · exact meets_fenceReadCache.bind fun _ => meets_past
  · exact meets_done rfl

theorem meets_uploadThrough (body : Body) (pre : Precondition) : Shows N t (uploadThrough N g body pre) P (Ends t) := by
  refine meets_easy rfl fun r => ?_
  split
  · exact meets_done rfl
  · exact meets_done rfl
  · exact meets_done rfl
  · refine (meets_keep (storeSpooled_calm _ _) kept_true).bind fun m => ?_
    refine meets_fenceReadCache.bind fun _ => meets_calm rfl kept_past fun _ => ?_
    split
    · exact meets_past
    · exact meets_done rfl

/-- A flush completes nothing of its own. Where it ends as `flushed` it has left the read cache
alone. -/
theorem meets_flush (hP : Kept t P) (p : Entry) (owner : Nat) : Shows N t (flushOneNoLock g p owner) P
    fun a x => completes a = false ∧ ∀ etag, a = .flushed etag → P x := by
  refine meets_calm rfl hP fun s => ?_
  split
  · exact meets_ret fun _ _ => ⟨rfl, nofun⟩
  · split
    · exact meets_easy rfl fun _ => meets_ret fun _ _ => ⟨rfl, nofun⟩
    · split
      · exact meets_easy rfl fun _ => meets_ret fun _ _ => ⟨rfl, nofun⟩
      · refine meets_calm rfl hP fun r => ?_
        split
        · exact meets_easy rfl fun _ => meets_easy rfl fun _ => meets_ret fun _ _ => ⟨rfl, nofun⟩
        · exact meets_easy rfl fun _ => meets_ret fun _ _ => ⟨rfl, nofun⟩
        · exact meets_easy rfl fun _ => meets_ret fun _ _ => ⟨rfl, nofun⟩
        · refine meets_calm rfl hP fun now => meets_calm rfl hP fun a => ?_
          split
          · exact meets_easy rfl fun _ => meets_ret fun _ _ => ⟨rfl, nofun⟩
          · split
            · exact meets_ret fun _ hx => ⟨rfl, fun _ _ => hx⟩
            · exact meets_ret fun _ _ => ⟨rfl, nofun⟩

theorem meets_runPendingOnce (owner : Nat) : Shows N t (runPendingOnce g owner) P (Ends t) := by
  refine meets_easy rfl fun r => ?_
  split
  · exact routine.withLockWrite ((meets_flush kept_true _ owner).post fun a x _ hx h => by cases hx.1.symm.trans h)
  · exact meets_done rfl

theorem meets_completeConditional (body : Body) (exp : Nat) (base : Option OriginObj) :
    Shows N t (completeConditional N g body exp base) P (Ends t) := by
  refine meets_easy rfl fun r => ?_
  split
  · exact meets_done rfl
  · refine meets_fenceReadCache.bind fun _ => (meets_flush kept_past _ g.id).bind fun a => ?_
    split
    · exact meets_easy rfl fun _ => meets_done rfl
    · exact meets_ret fun x hx _ => hx.2 _ rfl
    · exact meets_done rfl
    · exact meets_done rfl

theorem meets_deleteLocked : Shows N t (deleteLocked N) P (Ends t) := by
  refine meets_easy rfl fun b => ?_
  split
  · refine meets_easy rfl fun now => meets_easy rfl fun r => ?_
    split
    · exact meets_done rfl
    · refine meets_easy rfl fun now' => ?_
      refine Meets.own (fun r x => r ≠ none → t ∈ x.2.past) (fun r x x' hr h hn => hr.past (h hn)) (fun w h r w' hi _ he ha => ?_)
        fun r => ?_
      · obtain ⟨hi', hr⟩ := step_easy rfl hi he ha
        refine ⟨hi', hr, fun hn => ?_⟩
        cases r with
        | none => exact absurd rfl hn
        | some a => exact past_fence he
      · split
        · exact meets_done rfl
        · exact Meets.pre (fun x _ hx => hx nofun) (meets_calm rfl kept_past fun _ => meets_past)
  · exact meets_done rfl

theorem meets_request (hp : IsRequest N p) : Shows N t p (fun _ => True) (Ends t) := by
  cases hp with
  | upload g body pre => exact routine.upload (meets_uploadPending body) (meets_uploadThrough body)
  | complete g body pre =>
    refine routine.complete (meets_easy rfl fun r => ?_) (meets_completeConditional body)
    split
    · exact meets_done rfl
    · exact meets_fenceReadCache.bind fun _ => meets_past
  | delete g => exact routine.delete meets_deleteLocked
  | deleteMany g => exact routine.deleteMany meets_deleteLocked
  | flush g owner => exact meets_runPendingOnce owner
  | head g => exact meets_built (head_built meets_looks)
  | openObject g n rng => exact meets_built (openObject_built meets_looks (fun _ => meets_coalesceFill n) rng)

/-! ## Every run -/

variable {w w' : World} {h : Hist}

theorem Inv.leave (hi : Inv w h) (t : Nat) : Inv w { h with holds := upd h.holds t none, past := h.past.filter (· != t) } where
  got_le := hi.got_le
  got_fresh := hi.got_fresh
  holds_lt v o hv := by
    by_cases e : v = t
    · simp [e] at hv
    · exact hi.holds_lt v o ((upd_ne _ _ e).symm.trans hv)
  behind := hi.behind
  past hp := hi.past fun hn => hp (by simp [hn])
  filled := hi.filled
  waiters k f v e hf hv he := by
    by_cases el : f.leader = t
    · simp [Hist.answered, el] at he
    · exact hi.waiters k f v e hf hv (by simpa [Hist.answered, upd_ne _ _ el] using he)
  joined_le := hi.joined_le
  late := hi.late

theorem inv_done (hi : Inv w h) (he : Ends t a (w, h)) : Inv w ((observer N).done t a w h) := by
  cases hc : completes a with
  | true =>
    have ht := hi.past (List.ne_nil_of_mem (he hc))
    have hi' := (hi.advance (hi.filled_none ht) (.inl ht)).leave t
    simpa only [observer, hc, if_true] using hi'
  | false =>
    have hi' := hi.leave t
    simpa only [observer, hc, Bool.false_eq_true, if_false] using hi'

theorem rely_done {v : Nat} (hv : v ≠ t) : Rely v (w, h) (w, (observer N).done t a w h) :=
  ⟨fun _ ho => (upd_ne _ _ hv).trans ho, fun _ => id, fun hp => List.mem_filter.2 ⟨hp, by simpa using hv⟩⟩

/-- Maintenance draws no lease: it renews one or takes it away. -/
theorem moves_env {e : Ev} (he : env N e w = some w') : Moves w w' := by
  have hk := env_keeps he
  refine ⟨hk.fresh.ge, fun l' hl' => .inl ?_, fun k f' u hf' hu => ⟨f', hk.flights ▸ hf', rfl, hu⟩⟩
  have hsame : w'.lease = w.lease → ∃ l ∈ w.lease, l.owner = l'.owner := fun hl => ⟨l', hl ▸ hl', rfl⟩
  cases e with
  | expire side => cases he; cases side <;> exact hsame rfl
  | evict side others maxBytes limit =>
    obtain ⟨r, hr⟩ := evict_eq_setRow N w side others maxBytes limit
    cases he
    apply hsame
    rw [hr]
    cases side <;> rfl
  | renewLease =>
    cases he
    obtain ⟨l, hl, rfl⟩ := Option.map_eq_some_iff.1 hl'
    refine ⟨l, hl, ?_⟩
    split <;> rfl
  | cleanupLeases =>
    cases he
    exact ⟨l', (Option.filter_eq_some_iff.1 hl').1, rfl⟩
  | _ => cases he; exact hsame rfl

theorem outline_sound (N : Naming) : (outline N).Sound (policy N) where
  idle_stable _ := kept_true.stable
  spawn t _ _ _ _ hp := ⟨fun _ => True, kept_true.stable, trivial, meets_request hp⟩
  done t a := by
    rintro ⟨w, h⟩ hi he
    exact ⟨inv_done (N := N) hi he, fun v hv => rely_done fun e => hv (by rw [e]), trivial⟩
  env e := by
    rintro ⟨w, h⟩ ⟨w', h'⟩ hi ha hx
    obtain ⟨he, rfl⟩ := Observer.env_eq_some.1 hx
    have he : env N e w = some w' := he
    have hs : safe (w, h) none w' = true := by
      have ha : (env N e w).all (safe (w, h) none) = true := ha
      rwa [he] at ha
    exact ⟨hi.move (moves_env he) hs, fun v _ => .track hs nofun⟩

/-- **Stale fills are fenced.** In every run in which tombstones go only when they are safe to go,
fences are not lost and nobody joins a fill that is behind, the fill in the read cache is no older
than the last completed operation, and nobody who joined later was handed one. -/
theorem fills_fenced (N : Naming) (w₀ : World) (c : (observer N).sys.Conf) (hr : Reaches (policy N) (w₀, Hist.init) c) :
    (∀ e, c.world.2.filled = some e → e = c.world.2.epoch) ∧ c.world.2.late = false := by
  have hi : Inv w₀ Hist.init := by
    refine ⟨nofun, fun _ _ => rfl, nofun, fun hb => ?_, fun hp => absurd rfl hp, nofun, nofun, fun _ _ => le_refl _, rfl⟩
    cases hl : w₀.lease <;> simp [behind, hl, Hist.init] at hb
  have hc := (outline_sound N).reaches (w := (w₀, Hist.init)) hi (fun _ => trivial) hr
  exact ⟨fun e he => (hc.inv.filled e he).1, hc.inv.late⟩

instance (N : Naming) : (policy N).Decides where
  step t s x r := by
    unfold policy
    dsimp only
    split
    · exact .isFalse id
    · exact inferInstanceAs (Decidable (_ = true))
    · exact inferInstanceAs (Decidable (_ = true))
    · exact inferInstanceAs (Decidable (_ = true))
    · exact .isTrue trivial
  env e x := inferInstanceAs (Decidable (_ = true))

instance (N : Naming) : (everyRun N).Decides where
  step _ _ _ _ := .isTrue trivial
  env _ _ := .isTrue trivial

def originOnly : World := { World.empty with origin := some ⟨⟨1, 1⟩, ['v']⟩ }

/-- An Open by gateway 0 whose fill has the origin's answer. -/
def fillAnswered : List (Move (observer sampleNaming).sys) :=
  .spawn 0 (openObject sampleNaming (sampleGateway 0) 1 .whole) :: List.replicate 7 (.run 0 0)

/-- A Delete by gateway 1. -/
def deleteWhole : List (Move (observer sampleNaming).sys) :=
  .spawn 1 (delete sampleNaming (sampleGateway 1)) :: List.replicate 10 (.run 1 0) ++ [.done 1]

def filledDeletedSchedule : List (Move (observer sampleNaming).sys) := fillAnswered ++ [.run 0 0, .run 0 0] ++ deleteWhole

theorem delete_clears_fill : ∃ c : (observer sampleNaming).sys.Conf,
    Reaches (policy sampleNaming) (originOnly, Hist.init) c ∧ c.world.2.epoch = 1 ∧
      (∀ e, c.world.2.filled = some e → e = c.world.2.epoch) ∧ c.world.2.late = false := by
  have hs : (policy sampleNaming).Starts filledDeletedSchedule :=
    And.intro (fun _ => IsRequest.openObject _ _ _) (And.intro (fun _ => IsRequest.delete _) trivial)
  obtain ⟨c, hr, hc⟩ := reaches_of_replay hs (w := (originOnly, Hist.init)) (fun c => Hist.epoch c.world.2 == 1) (by decide +kernel)
  exact ⟨c, hr, by simpa using hc, fills_fenced _ _ c hr⟩

/-- Readers get the row of the read cache: it is live and no live row of the write-back namespace
hides it. -/
def readable (w : World) : Bool :=
  (Rows.lookup ⟨w.now, w.wb, w.rc⟩).any fun x => x.1 == .read && !(versionOf x.2).isDeleted

/-- The Delete comes between the origin's answer and the fill's publication. Both tombstones are
evicted for the sake of a larger row. -/
def evictedTombstoneSchedule : List (Move (observer sampleNaming).sys) :=
  let others : List EvictRow := [⟨['l'], 2, 2 * originTombstoneTTL, 0⟩]
  fillAnswered ++ deleteWhole ++ [.env (.evict .read others 1 4096), .env (.evict .write others 1 4096), .run 0 0, .run 0 0]

/-- The body of a deleted object is readable again. No time passes, so that every fill is shorter
than the lifetime of a tombstone. -/
theorem evicted_tombstone_admits_stale_fill : ¬ ∀ (N : Naming) (w₀ : World) (c : (observer N).sys.Conf),
    Reaches (everyRun N) (w₀, Hist.init) c → ∀ e, c.world.2.filled = some e → readable c.world.1 = true → e = c.world.2.epoch := by
  intro hall
  have hs : (everyRun sampleNaming).Starts evictedTombstoneSchedule :=
    And.intro (fun _ => IsRequest.openObject _ _ _) (And.intro (fun _ => IsRequest.delete _) trivial)
  obtain ⟨c, hr, hc⟩ := reaches_of_replay hs (w := (originOnly, Hist.init))
    (fun c => Hist.filled c.world.2 == some 0 && (readable c.world.1 && Hist.epoch c.world.2 == 1)) (by decide +kernel)
  simp only [Bool.and_eq_true, beq_iff_eq] at hc
  have he : 0 = c.world.2.epoch := hall _ _ c hr 0 hc.1 hc.2.1
  exact absurd (he.trans hc.2.2) (by decide)

end Fencing

end Pgvs3.Tier
