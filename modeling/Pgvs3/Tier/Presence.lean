import Pgvs3.Tier.Presence.Reads
/-!
# No spurious NotFound

A PUT leaves its row in the write-back namespace and a tombstone in the read cache, which only the
write-back row hides from readers. Each namespace is evicted on its own: once the write-back row has
gone, the tombstone answers for an object that the origin has (`evicted_notFound`). In a run the
write-back row stops being live only while the origin has the object and no tombstone is left
(`keeps`). The other conditions of `policy` are on the publication itself, on a row that expires
while it is opened, and on coalesced calls that were answered before the PUT.
-/

namespace Pgvs3.Tier

open Conc Sys Outline

namespace Presence

/-! ## Writes -/

variable {N : Naming} {g : Gateway} {t : Nat} {α : Type} {P : World × Hist → Prop} {Q : α → World × Hist → Prop} {body : Body}
  {etag : Text}

theorem plain_of_quiet (s : Stmt) (hs : s.quiet = true) : plain s = true := by
  cases s <;> first | rfl | cases hs

theorem kept_ends (a : Res) : Kept t (Ends t a) :=
  kept_clear.and ((kept_imp kept_early).and (kept_imp kept_published))

theorem fenceReadCache_plain : Asks plain (fenceReadCache N) := .stmt rfl fun _ => .stmt rfl fun _ => trivial

theorem routine : Routine (outline N) (policy N) t (fun x => Clear t x.1) (Ends t) where
  before hp := meets_keep (hp.mono plain_of_quiet) kept_clear
  after a _ _ hp := meets_keep (hp.mono plain_of_quiet) (kept_ends a)
  refused _ hx := ⟨.of_clear nofun rfl hx, .of_clear nofun rfl hx, .of_clear nofun rfl hx⟩

theorem meets_originUpload {pre : Precondition} {conditional : Bool} {f : Uploaded → Req α} (hP : Kept t P)
    (hok : ∀ v, Ensures N t (f (.ok v)) (fun x => P x ∧ x.1.origin.isSome = true) Q)
    (hno : ∀ r, (∀ v, r ≠ .ok v) → Ensures N t (f r) P Q) :
    Ensures N t (Tier.ask (.originUpload body pre conditional) >>= f) P Q := by
  refine Meets.own (fun r x => P x ∧ ∀ v, r = .ok v → x.1.origin.isSome = true)
    (fun r => hP.and fun x x' hm h v hv => hm.origin (h v hv)) (fun w h r w' hi hw he _ => ?_) fun r => ?_
  · obtain ⟨hi', hm, ho⟩ := step_upload hi he
    exact ⟨hi', fun v _ => hm v, hP _ _ (hm t) hw, ho⟩
  · cases r with
    | ok v => exact (hok v).pre fun x _ hx => ⟨hx.1, hx.2 v rfl⟩
    | _ => exact (hno _ (by simp)).pre fun x _ hx => hx.1

theorem meets_storeSpooled (k : PubKind) (body : Body) : Ensures N t (storeSpooled N g k body) (fun x => Clear t x.1 ∧ PutKind k x)
      fun r x => Clear t x.1 ∧ ∀ m, r = some (some m) → x.2.published = true := by
  have hk : Kept t fun x => Clear t x.1 ∧ PutKind k x :=
    kept_clear.and fun x x' hm h => h.imp_right fun ⟨hv, ho⟩ => ⟨hv, hm.origin ho⟩
  refine meets_skip rfl hk fun now => ?_
  refine Meets.own (fun r x => Clear t x.1 ∧ ∀ m, r = some (some m) → x.2.published = true)
    (fun r => kept_clear.and fun x x' hm h m hr => hm.published (h m hr))
      (fun w h r w' hi hw he ha => ?_) fun r => meets_ret fun x hx => hx
  obtain ⟨hi', hm, hp⟩ := step_publish hi hw.2 he ha
  exact ⟨hi', fun v _ => hm v, (hm t).clear hw.1, hp⟩

theorem meets_written : Ensures N t (pure (.written etag)) (fun x => Clear t x.1 ∧ x.2.published = true) (Ends t) :=
  meets_ret fun _ hx => ⟨hx.1, nofun, fun _ => hx.2⟩

theorem meets_uploadPending (body : Body) : Ensures N t (uploadPending N g body) (fun x => Clear t x.1) (Ends t) := by
  refine ((meets_storeSpooled .pending body).pre fun x _ hx => ⟨hx, .inl rfl⟩).bind fun r => ?_
  split
  · next m =>
    refine Meets.pre (P := fun x : World × Hist => Clear t x.1 ∧ x.2.published = true) (fun x _ hx => ⟨hx.1, hx.2 m rfl⟩) ?_
    exact (meets_keep fenceReadCache_plain (kept_clear.and kept_published)).bind fun _ => meets_written
  · exact meets_failed nofun rfl fun x hx => hx.1

theorem meets_uploadThrough (body : Body) (pre : Precondition) :
    Ensures N t (uploadThrough N g body pre) (fun x => Clear t x.1) (Ends t) := by
  refine meets_originUpload kept_clear (fun v => ?_) fun r hr => ?_
  · refine ((meets_storeSpooled (.normal v) body).pre fun x _ hx => ⟨hx.1, .inr ⟨⟨v, rfl⟩, hx.2⟩⟩).bind fun m => ?_
    have hk : Kept t fun x => Clear t x.1 ∧ ∀ r, m = some (some r) → x.2.published = true :=
      kept_clear.and fun x x' hm h r hr => hm.published (h r hr)
    refine (meets_keep fenceReadCache_plain hk).bind fun _ => meets_skip rfl hk fun _ => ?_
    split
    · next r => exact meets_written.pre fun x _ hx => ⟨hx.1, hx.2 r rfl⟩
    · exact meets_failed nofun rfl fun x hx => hx.1
  · cases r with
    | ok v => exact absurd rfl (hr v)
    | _ => exact meets_failed nofun rfl fun x hx => hx

def Flushed (a : Res) : Prop := a ≠ .notFound ∧ Res.isWritten a = false

theorem meets_flush (hP : Kept t P) (p : Entry) (owner : Nat) : Ensures N t (flushOneNoLock g p owner) P fun a x => P x ∧ Flushed a := by
  have hret : ∀ {a : Res}, Flushed a → Ensures N t (pure a) P fun a x => P x ∧ Flushed a :=
    fun ha => meets_ret fun x hx => ⟨hx, ha⟩
  have hfailed : Flushed .failed := ⟨nofun, rfl⟩
  refine meets_skip rfl hP fun s => ?_
  split
  · exact hret hfailed
  · split
    · exact meets_skip rfl hP fun _ => hret hfailed
    · split
      · exact meets_skip rfl hP fun _ => hret ⟨nofun, rfl⟩
      · refine meets_originUpload hP (fun v => ?_) fun r hr => ?_
        · refine meets_skip rfl (hP.and kept_origin) fun now => ?_
          refine Meets.own (fun _ => P) (fun _ => hP) (fun w h r w' hi hw he ha => ?_) fun r => ?_
          · obtain ⟨hi', hm⟩ := step_mark hi hw.2 he ha
            exact ⟨hi', fun v _ => hm v, hP _ _ (hm t) hw.1⟩
          · split
            · exact meets_skip rfl hP fun _ => hret hfailed
            · split <;> exact hret ⟨nofun, rfl⟩
        · cases r with
          | ok v => exact absurd rfl (hr v)
          | precondition => exact meets_skip rfl hP fun _ => meets_skip rfl hP fun _ => hret ⟨nofun, rfl⟩
          | unsupported | failed => exact meets_skip rfl hP fun _ => hret hfailed

theorem meets_runPendingOnce (owner : Nat) : Ensures N t (runPendingOnce g owner) (fun x => Clear t x.1) (Ends t) := by
  refine meets_skip rfl kept_clear fun r => ?_
  split
  · exact routine.withLockWrite ((meets_flush kept_clear _ owner).post fun a x _ hx => .of_clear hx.2.1 hx.2.2 hx.1)
  · exact meets_failed nofun rfl fun x hx => hx

theorem meets_complete {exp : Option Nat} {base : Text} {missing : Bool} {owner : Option Nat}
    {f : Option Entry → Req Res} (hnone : f none = pure .failed)
    (hsome : ∀ e, Ensures N t (f (some e)) (fun x => Clear t x.1 ∧ x.2.published = true) (Ends t)) :
    Ensures N t (Tier.ask (.db (.complete etag body exp base missing owner)) >>= f) (fun x => Clear t x.1) (Ends t) := by
  refine Meets.own (fun r x => Clear t x.1 ∧ (r ≠ none → x.2.published = true))
    (fun r => kept_clear.and (kept_imp kept_published)) (fun w h r w' hi hw he ha => ?_) fun r => ?_
  · obtain ⟨hi', hm, hp⟩ := step_complete hi he ha
    exact ⟨hi', fun v _ => hm v, (hm t).clear hw, hp⟩
  · cases r with
    | none =>
      rw [hnone]
      exact meets_failed nofun rfl fun x hx => hx.1
    | some e => exact (hsome e).pre fun x _ hx => ⟨hx.1, hx.2 nofun⟩

theorem meets_completeConditional (body : Body) (exp : Nat) (base : Option OriginObj) :
    Ensures N t (completeConditional N g body exp base) (fun x => Clear t x.1) (Ends t) := by
  refine meets_complete rfl fun e => ?_
  have hk : Kept t fun x => Clear t x.1 ∧ x.2.published = true := kept_clear.and kept_published
  refine (meets_keep fenceReadCache_plain hk).bind fun _ => (meets_flush hk e g.id).bind fun a => ?_
  split
  · refine Meets.pre (fun x _ hx => hx.1) (meets_skip rfl hk fun _ => ?_)
    exact meets_failed nofun rfl fun x hx => hx.1
  · exact meets_written.pre fun x _ hx => hx.1
  · exact meets_failed nofun rfl fun x hx => hx.1.1
  · exact meets_failed nofun rfl fun x hx => hx.1.1

theorem meets_request {p : Req Res} (hp : IsUse N p) : Ensures N t p (fun x => Clear t x.1) (Ends t) := by
  cases hp with
  | upload g body pre => exact routine.upload (meets_uploadPending body) (meets_uploadThrough body)
  | complete g body pre =>
    refine routine.complete (meets_complete rfl fun e => ?_) (meets_completeConditional body)
    exact (meets_keep fenceReadCache_plain (kept_clear.and kept_published)).bind fun _ => meets_written
  | flush g owner => exact meets_runPendingOnce owner
  | head g => exact meets_head
  | openObject g n rng => exact meets_openObject n rng

/-! ## Every run -/

variable {w w' : World} {h : Hist} {a : Res}

theorem inv_done (hi : Inv w h) (he : Ends t a (w, h)) : Inv w ((observer N).done t a w h) where
  visible := hi.visible
  acked ha := by
    rcases Bool.or_eq_true_iff.1 ha with ha | ha
    · exact hi.acked ha
    · exact he.2.2 ha
  late u hu := by
    by_cases e : u = t
    · subst e
      simp [observer] at hu
    · exact hi.late u (by simpa [observer, upd_ne _ _ e] using hu)
  clear u hu := by
    by_cases e : u = t
    · subst e
      exact he.1
    · exact hi.clear u (by simpa [observer, upd_ne _ _ e] using hu)
  waiters k f u hf hm hu := by
    have hut : u ≠ t := by
      rintro rfl
      simp [observer] at hu
    obtain ⟨ho, hd⟩ := hi.waiters k f u hf hm (by simpa [observer, upd_ne _ _ hut] using hu)
    refine ⟨ho, ?_⟩
    by_cases e : f.leader = t
    · simp [observer, e]
    · simpa [observer, upd_ne _ _ e] using hd
  inbox u hm hu := by
    by_cases e : u = t
    · subst e
      simp [observer] at hu
    · exact hi.inbox u hm (by simpa [observer, upd_ne _ _ e] using hu)
  missed := by
    have hm := hi.missed
    by_cases ha : a = .notFound
    · simp [observer, hm, show h.since t = some false from he.2.1 ha]
    · simp [observer, hm, ha]

theorem mono_done {v : Nat} (hv : v ≠ t) : Mono v (w, h) (w, (observer N).done t a w h) :=
  ⟨id, id, fun _ hb => (upd_ne _ _ hv).trans hb, fun hd => (upd_ne _ _ hv).trans hd, id, fun _ => id⟩

theorem inv_env {e : Ev} (hi : Inv w h) (hg : e ≠ .originGone)
    (hk : h.published = true → (env N e w).all (keeps w) = true) (he : env N e w = some w') :
    Inv w' h ∧ ∀ v, Mono v (w, h) (w', h) := by
  have hs := env_keeps he
  have ho := env_origin_isSome he hg
  have hclear : ∀ u, Clear u w → Clear u w' := fun u hc => by
    rw [Clear, hs.flights, hs.inbox]
    exact hc
  refine ⟨⟨fun hp => ?_, hi.acked, hi.late, fun u hu => hclear u (hi.clear u hu), fun k f u hf hm hu => ?_, fun u hm => ?_, hi.missed⟩,
    fun v => ⟨ho, id, fun _ => id, id, hclear v, fun k hl => ?_⟩⟩
  · have hk := hk hp
    rw [he] at hk
    refine (hi.visible hp).keep ho (fun r' hr' => ?_) hk
    rcases env_row he .write with hr | ⟨_, hr, _⟩
    · exact ⟨r', hr.symm.trans hr', rfl⟩
    · cases hr.symm.trans hr'
  · rw [hs.flights] at hf
    exact (hi.waiters k f u hf hm hu).imp_left ho
  · rw [hs.inbox] at hm
    exact hi.inbox u hm
  · rw [Leads, hs.flights]
    exact hl

theorem outline_sound (N : Naming) : (outline N).Sound (policy N) where
  idle_stable _ := kept_clear.stable
  spawn t _ _ _ hc hp := ⟨fun x => Clear t x.1, kept_clear.stable, hc, meets_request hp⟩
  done t a := by
    rintro ⟨w, h⟩ hi he
    exact ⟨inv_done hi he, fun v hv => mono_done fun e => hv (by rw [e]), he.1⟩
  env e := by
    rintro ⟨w, h⟩ ⟨w', h'⟩ hi ha hx
    obtain ⟨he, rfl⟩ := Observer.env_eq_some.1 hx
    obtain ⟨hi', hm⟩ := inv_env hi ha.1 ha.2 he
    exact ⟨hi', fun v _ => hm v⟩

/-- **No spurious NotFound.** In every run without deletes whose steps keep the object in view, no
Head or Open that begins after an acknowledged write answers NotFound. -/
theorem no_spurious_notFound (N : Naming) (w₀ : World) (hf : ∀ k, w₀.flights k = none) (hb : ∀ t, w₀.inbox t = none)
    (c : (observer N).sys.Conf) (hr : Reaches (policy N) (w₀, Hist.init) c) : c.world.2.missed = false := by
  have hc : ∀ t, Clear t w₀ := fun t => ⟨(fun k f h => by cases (hf k).symm.trans h), hb t⟩
  have hi : Inv w₀ Hist.init := by
    refine ⟨nofun, nofun, nofun, fun t _ => hc t, fun k f t h => ?_, fun t h => ?_, rfl⟩
    · cases (hf k).symm.trans h
    · cases (hb t).symm.trans h
  exact ((outline_sound N).reaches (w := (w₀, Hist.init)) hi hc hr).inv.missed

instance Gentle.decidable (x : World × Hist) (u : Update) : Decidable (Gentle x u) :=
  inferInstanceAs (Decidable ((_ = true → _ = true) ∧ (_ = true → _ = true)))

instance decidable_ne_originGone (e : Ev) : Decidable (e ≠ .originGone) := by
  cases e with
  | originGone => exact .isFalse fun h => h rfl
  | _ => exact .isTrue nofun

instance (N : Naming) : (policy N).Decides where
  step t s x r := by
    unfold policy
    dsimp only
    split
    · exact Gentle.decidable x _
    · exact Gentle.decidable x _
    · exact .isFalse id
    · exact inferInstanceAs (Decidable (Hist.published x.2 = true → _ = true))
    · exact .isTrue trivial
  env e x := @instDecidableAnd _ _ (decidable_ne_originGone e) (inferInstanceAs (Decidable (_ = true → _ = true)))

instance (N : Naming) : (everyRun N).Decides where
  step _ _ _ _ := .isTrue trivial
  env e _ := decidable_ne_originGone e

/-- A PUT through the origin by gateway 0, in ten statements. -/
def putSmall (t : Nat) : List (Move (observer sampleNaming).sys) :=
  .spawn t (uploadWithOptions sampleNaming (sampleGateway 0) ⟨1, 1⟩ .none) :: List.replicate 10 (.run t 0) ++ [.done t]

/-- A PUT, then a Head of another gateway that has its answer. -/
def putHeadSchedule : List (Move (observer sampleNaming).sys) :=
  putSmall 0 ++ .spawn 1 (head (sampleGateway 1)) :: List.replicate 6 (.run 1 0)

theorem present_after_put : ∃ c : (observer sampleNaming).sys.Conf,
    Reaches (policy sampleNaming) (World.empty, Hist.init) c ∧ c.world.2.acked = true ∧ c.world.2.since 1 = some true ∧
      c.world.2.missed = false := by
  have hs : (policy sampleNaming).Starts putHeadSchedule :=
    And.intro (fun _ => IsUse.upload _ _ _) (And.intro (fun _ => IsUse.head _) trivial)
  obtain ⟨c, hr, hc⟩ := reaches_of_replay hs (w := (World.empty, Hist.init))
    (fun c => Hist.acked c.world.2 && Hist.since c.world.2 1 == some true) (by decide +kernel)
  simp only [Bool.and_eq_true, beq_iff_eq] at hc
  exact ⟨c, hr, hc.1, hc.2, no_spurious_notFound _ _ (fun _ => rfl) (fun _ => rfl) c hr⟩

/-- A PUT, an eviction from the write-back namespace, where another row expires later, then a Head.
-/
def evictedSchedule : List (Move (observer sampleNaming).sys) :=
  putSmall 0 ++ [.env (.evict .write [⟨['l'], 1, 2 * originTombstoneTTL, 0⟩] 1 4096),
    .spawn 1 (head (sampleGateway 1)), .run 1 0, .done 1]

/-- The tombstone that the PUT has left in the read cache outlives the evicted row: Head answers
NotFound. -/
theorem evicted_notFound : ¬ ∀ (N : Naming) (w₀ : World), (∀ k, w₀.flights k = none) → (∀ t, w₀.inbox t = none) →
    ∀ c : (observer N).sys.Conf, Reaches (everyRun N) (w₀, Hist.init) c → c.world.2.missed = false := by
  intro hall
  have hs : (everyRun sampleNaming).Starts evictedSchedule :=
    And.intro (fun _ => IsUse.upload _ _ _) (And.intro (fun _ => IsUse.head _) trivial)
  obtain ⟨c, hr, hc⟩ := reaches_of_replay hs (w := (World.empty, Hist.init)) (fun c => Hist.missed c.world.2) (by decide +kernel)
  rw [hall _ _ (fun _ => rfl) (fun _ => rfl) c hr] at hc
  cases hc

end Presence

end Pgvs3.Tier
