import Pgvs3.Queue.JobSteps
/-!
# The invariant of the job tables

Every row is sound, a locked row belongs to a call that explains what its holder sees (`Call.Sees`),
and the rows that a call counts on are held by it (`Call.keeps`). `Inv.write` is the frame rule: a
statement that writes only rows which nobody else holds owes a proof about those rows alone.
-/

namespace Pgvs3.Jobs

open List Conc

/-- The request has one token for every job, and the leases of every queue are among those of the
request. -/
structure Heartbeat.Covers (h : Heartbeat) (byQueue : List (Nat × List (Nat × Nat))) : Prop where
  nodup : (h.leases.map (·.1)).Nodup
  mem : ∀ q ∈ byQueue, ∀ l ∈ q.2, l ∈ h.leases

def Call.Ok (now : Int) : Call → Prop
  | .enqueue todo done => (∀ j ∈ todo ++ done, j.staged) ∧ (done.map (·.id)).Nodup
  | .begun _ _ began | .read _ _ began | .fetching _ began _ _ | .discard _ _ began => began ≤ now
  | .heartbeat h byQueue => h.Covers byQueue
  | .validating h began todo byQueue => began ≤ now ∧ h.Covers todo ∧ h.Covers byQueue
  | .extending h began todo => began ≤ now ∧ h.Covers todo
  | .idle | .answered _ | .resolved _ _ | .fetch _ | .expire _ => True

/-- What has happened to the job once a fetch that returns `out` and sees it as `view` is committed.
-/
def Row.afterFetch (r : Row) (out : List Job) (view : Job) : History :=
  { (r.deliver out).hist with lease := (Row.leaseOf view).or r.hist.lease }

/-- What a call can have made of a row that it holds. -/
def Call.Sees (now : Int) (token : Nat) (r : Row) (view : Job) : Call → Prop
  | .read m queue _ => view = r.job ∧ r.is queue m.id
  | .fetching _ began _ out => view.id = r.job.id ∧ Sound now token view (r.afterFetch out view) ∧ r.job.state.terminal = false ∧
      (r.job.state = .active → ∀ u ∈ r.job.leaseUntil, u ≤ began)
  | .validating .. => view = r.job
  | .extending h began _ => view = r.job ∨ (r.job.state = .active ∧
      (∃ t, r.job.leaseToken = some t ∧ (r.job.id, t) ∈ h.leases) ∧ view = r.job.extend began h.worker h.visibility)
  | _ => False

def Call.keeps : Call → List Nat
  | .read m _ _ => [m.id]
  | .fetching _ _ _ out => out.map (·.id)
  | _ => []

def Call.claims (id : Nat) (c : Call) : Option Unit := if id ∈ c.inserted then some () else none

structure Inv (w : World) : Prop where
  rows : ∀ r ∈ w.rows, Sound w.now w.token r.job r.hist
  removed : ∀ r ∈ w.removed, Sound w.now w.token r.job r.hist
  ids : (w.rows.map (·.job.id)).Nodup
  calls : ∀ c ∈ w.calls, c.Ok w.now
  inserted : ∀ c ∈ w.calls, ∀ id ∈ c.inserted, ∀ r ∈ w.rows, r.job.id ≠ id
  apart : ∀ id, Exclusive (Call.claims id) w.calls
  held : ∀ r ∈ w.rows, ∀ l ∈ r.lock, ∃ c, w.calls[l.holder]? = some c ∧ c.Sees w.now w.token r l.view
  keeps : ∀ i c, w.calls[i]? = some c → ∀ id ∈ c.keeps, ∃ r ∈ w.rows, r.job.id = id ∧ r.heldBy i

variable {w w' : World} {i : Nat} {c c' : Call} {r r' : Row} {now now' : Int} {token token' : Nat}

/-! ## Rows and their holders -/

theorem claims_iff {id : Nat} {u : Unit} : c.claims id = some u ↔ id ∈ c.inserted := by
  unfold Call.claims
  split
  · next hmem => exact ⟨fun _ => hmem, fun _ => rfl⟩
  · next hmem => exact ⟨nofun, fun h => absurd h hmem⟩

theorem Call.Ok.mono (h : c.Ok now) (hnow : now ≤ now') : c.Ok now' := by
  cases c with
  | begun | read | fetching | discard => exact Int.le_trans h hnow
  | validating | extending => exact ⟨Int.le_trans h.1 hnow, h.2⟩
  | _ => exact h

theorem Call.Sees.mono {view : Job} (h : c.Sees now token r view) (hnow : now ≤ now') (htoken : token ≤ token') :
    c.Sees now' token' r view := by
  cases c with
  | fetching => exact ⟨h.1, h.2.1.mono hnow htoken, h.2.2⟩
  | _ => exact h

theorem freeFor_of_heldBy (h : r.heldBy i) : r.freeFor i := by
  obtain ⟨l, hl, hi⟩ := h
  intro l' hl'
  cases (Option.mem_def.1 hl).symm.trans hl'
  exact hi

theorem lock_of_not_heldBy (hfree : r.freeFor i) (h : ¬ r.heldBy i) : r.lock = none := by
  cases hl : r.lock with
  | none => rfl
  | some l => exact absurd ⟨l, hl, hfree l hl⟩ h

theorem seen_of_lock_none (h : r.lock = none) : r.seen i = r.job := by simp [Row.seen, h]

theorem seen_of_held {l : Lock} (h : r.lock = some l) (hi : l.holder = i) : r.seen i = l.view := by simp [Row.seen, h, hi]

namespace Inv

section

variable (hinv : Inv w)
include hinv

theorem row_eq (hr : r ∈ w.rows) (hr' : r' ∈ w.rows) (hid : r.job.id = r'.job.id) : r = r' :=
  inj_on_of_nodup_map hinv.ids hr hr' hid

/-- A row that nobody else holds is free, or it is held and the call explains what it sees. -/
theorem seen_cases (hi : w.calls[i]? = some c) (hr : r ∈ w.rows) (hfree : r.freeFor i) :
    (r.lock = none ∧ r.seen i = r.job) ∨ (∃ l, r.lock = some l ∧ l.holder = i ∧ r.seen i = l.view ∧ c.Sees w.now w.token r l.view) := by
  cases hl : r.lock with
  | none => exact .inl ⟨rfl, seen_of_lock_none hl⟩
  | some l =>
    have hh : l.holder = i := hfree l hl
    obtain ⟨d, hd, hsees⟩ := hinv.held r hr l hl
    rw [hh, hi] at hd
    cases hd
    exact .inr ⟨l, rfl, hh, seen_of_held hl hh, hsees⟩

theorem heldBy_of_keeps (hi : w.calls[i]? = some c) (hr : r ∈ w.rows) (hk : r.job.id ∈ c.keeps) : r.heldBy i := by
  obtain ⟨r', hr', hid, hheld⟩ := hinv.keeps i c hi _ hk
  rwa [hinv.row_eq hr hr' hid.symm]

theorem write (hi : w.calls[i]? = some c) {g : Row → Row} (htoken : w.token ≤ token') (hok : c'.Ok w.now)
    (hins : c'.inserted = []) (hother : ∀ r ∈ w.rows, ¬ r.freeFor i → g r = r) (hid : ∀ r ∈ w.rows, (g r).job.id = r.job.id)
    (hsound : ∀ r ∈ w.rows, r.freeFor i → Sound w.now token' (g r).job (g r).hist)
    (hlock : ∀ r ∈ w.rows, r.freeFor i → ∀ l ∈ (g r).lock, l.holder = i ∧ c'.Sees w.now token' (g r) l.view)
    (hkeeps : ∀ id ∈ c'.keeps, ∃ r ∈ w.rows, r.job.id = id ∧ (g r).heldBy i) :
    Inv { w with rows := w.rows.map g, calls := w.calls.set i c', token := token' } := by
  have hset : (w.calls.set i c')[i]? = some c' := by
    rw [getElem?_set_self', hi]
    rfl
  refine ⟨?_, fun r hr => (hinv.removed r hr).mono (Int.le_rfl) htoken, ?_, ?_, ?_, ?_, ?_, ?_⟩
  · intro r hr
    obtain ⟨x, hx, rfl⟩ := mem_map.1 hr
    by_cases hfree : x.freeFor i
    · exact hsound x hx hfree
    · rw [hother x hx hfree]
      exact (hinv.rows x hx).mono (Int.le_rfl) htoken
  · rw [List.map_map, map_congr_left (g := fun r => r.job.id) hid]
    exact hinv.ids
  · exact forall_set hinv.calls hok
  · intro d hd id hmem r hr
    obtain ⟨x, hx, rfl⟩ := mem_map.1 hr
    rw [hid x hx]
    rcases mem_or_eq_of_mem_set hd with hd' | rfl
    · exact hinv.inserted d hd' id hmem x hx
    · rw [hins] at hmem
      exact absurd hmem not_mem_nil
  · intro id
    refine (hinv.apart id).set hi fun _ hc => ?_
    have hmem := claims_iff.1 hc
    rw [hins] at hmem
    exact absurd hmem not_mem_nil
  · intro r hr l hl
    obtain ⟨x, hx, rfl⟩ := mem_map.1 hr
    by_cases hfree : x.freeFor i
    · obtain ⟨hh, hsees⟩ := hlock x hx hfree l hl
      exact ⟨c', hh ▸ hset, hsees⟩
    · rw [hother x hx hfree] at hl ⊢
      have hne : i ≠ l.holder := fun heq => hfree (freeFor_of_heldBy ⟨l, hl, heq.symm⟩)
      obtain ⟨d, hd, hsees⟩ := hinv.held x hx l hl
      exact ⟨d, by rw [getElem?_set_ne hne]; exact hd, hsees.mono (Int.le_rfl) htoken⟩
  · intro k d hd id hmem
    rcases getElem?_set_cases hd with ⟨rfl, rfl⟩ | ⟨hki, hd'⟩
    · obtain ⟨r, hr, rfl, hheld⟩ := hkeeps id hmem
      exact ⟨g r, mem_map_of_mem hr, hid r hr, hheld⟩
    · -- what another session holds is not written
      obtain ⟨r, hr, rfl, hheld⟩ := hinv.keeps k d hd' id hmem
      have hfree : ¬ r.freeFor i := by
        obtain ⟨l, hl, hk⟩ := hheld
        exact fun hf => hki (hk.symm.trans (hf l hl))
      exact ⟨g r, mem_map_of_mem hr, hid r hr, (hother r hr hfree).symm ▸ hheld⟩

theorem finish (hi : w.calls[i]? = some c) {g : Row → Row} (hfree : c'.free = true)
    (hother : ∀ r ∈ w.rows, ¬ r.freeFor i → g r = r)
    (hrow : ∀ r ∈ w.rows, r.freeFor i → (g r).job.id = r.job.id ∧ (g r).lock = none ∧ Sound w.now w.token (g r).job (g r).hist) :
    Inv { w with rows := w.rows.map g, calls := w.calls.set i c' } := by
  have hc' : c'.Ok w.now ∧ c'.inserted = [] ∧ c'.keeps = [] := by
    cases c' with
    | idle | answered => exact ⟨trivial, rfl, rfl⟩
    | _ => cases hfree
  refine hinv.write hi (le_rfl) hc'.1 hc'.2.1 hother ?_ (fun r hr hf => (hrow r hr hf).2.2) ?_ ?_
  · intro r hr
    by_cases hf : r.freeFor i
    · exact (hrow r hr hf).1
    · rw [hother r hr hf]
  · intro r hr hf l hl
    rw [(hrow r hr hf).2.1] at hl
    cases hl
  · intro id hid
    rw [hc'.2.2] at hid
    exact absurd hid not_mem_nil

end

/-! ## Steps that touch no row -/

theorem elapse (hinv : Inv w) (time : Nat) : Inv { w with now := w.now + time } := by
  have hle : w.now ≤ w.now + time := Int.le_add_of_nonneg_right (Int.natCast_nonneg _)
  refine ⟨fun r hr => (hinv.rows r hr).mono hle (le_rfl), fun r hr => (hinv.removed r hr).mono hle (le_rfl), hinv.ids,
    fun c hc => (hinv.calls c hc).mono hle, hinv.inserted, hinv.apart, fun r hr l hl => ?_, hinv.keeps⟩
  obtain ⟨c, hc, hsees⟩ := hinv.held r hr l hl
  exact ⟨c, hc, hsees.mono hle (le_rfl)⟩

theorem connect (hinv : Inv w) : Inv { w with calls := w.calls ++ [.idle] } := by
  have hcall : ∀ {k : Nat} {d : Call}, w.calls[k]? = some d → (w.calls ++ [Call.idle])[k]? = some d := by
    intro k d hd
    rw [getElem?_append_left (List.getElem?_eq_some_iff.1 hd).1]
    exact hd
  refine ⟨hinv.rows, hinv.removed, hinv.ids, forall_push hinv.calls trivial, forall_push hinv.inserted nofun,
    fun id => (hinv.apart id).push rfl, fun r hr l hl => ?_, ?_⟩
  · obtain ⟨c, hc, hsees⟩ := hinv.held r hr l hl
    exact ⟨c, hcall hc, hsees⟩
  · intro k d hd id hid
    rcases getElem?_push_cases hd with hd | rfl
    · exact hinv.keeps k d hd id hid
    · exact absurd hid not_mem_nil

theorem covers_of_resolveLeaseQueues {h : Heartbeat} {byQueue : List (Nat × List (Nat × Nat))}
    (hnodup : (h.leases.map (·.1)).Nodup) (hres : w.resolveLeaseQueues h.leases = some byQueue) : h.Covers byQueue := by
  unfold World.resolveLeaseQueues at hres
  split at hres
  · cases hres
  · cases hres
    refine ⟨hnodup, fun q hq l hl => ?_⟩
    obtain ⟨n, -, rfl⟩ := mem_map.1 hq
    exact (perm_insertionSort _ _).mem_iff.1 (mem_of_mem_filter hl)

theorem place (hinv : Inv w) (hi : w.calls[i]? = some c) (hp : Place w c c') : Inv (w.set i c') := by
  have hok : c'.Ok w.now ∧ c'.inserted = [] ∧ c'.keeps = [] := by
    have hle := Int.le_refl w.now
    cases hp with
    | enqueue inputs jobs _ hjobs =>
      refine ⟨⟨fun j hj => staged_of_stageEnqueueJobs hjobs j ?_, nodup_nil⟩, rfl, rfl⟩
      rwa [append_nil] at hj
    | heartbeat h byQueue _ hnodup hby => exact ⟨covers_of_resolveLeaseQueues hnodup hby, rfl, rfl⟩
    | validating h byQueue =>
      have hcovers : h.Covers byQueue := hinv.calls _ (mem_of_getElem? hi)
      exact ⟨⟨hle, hcovers, hcovers⟩, rfl, rfl⟩
    | extending h began byQueue =>
      have hv := hinv.calls _ (mem_of_getElem? hi)
      exact ⟨⟨hv.1, hv.2.2⟩, rfl, rfl⟩
    | discard | begin | fetching => exact ⟨hle, rfl, rfl⟩
    | resolved | fetch | expire | refused => exact ⟨trivial, rfl, rfl⟩
  have hsees : ∀ r view, c.Sees w.now w.token r view → c'.Sees w.now w.token r view := by
    have hfree : ∀ {d : Call} {r view}, d.free = true → ¬ d.Sees w.now w.token r view := by
      intro d r view hd
      cases d with
      | idle | answered => exact id
      | _ => cases hd
    intro r view h
    cases hp with
    | enqueue _ _ hc | resolved _ _ hc | fetch _ hc | heartbeat _ _ hc | expire _ _ hc | discard _ _ hc => exact absurd h (hfree hc)
    | refused x hc =>
      obtain hc | ⟨_, _, rfl⟩ | ⟨_, _, _, rfl⟩ := hc
      · exact absurd h (hfree hc)
      · exact absurd h id
      · exact absurd h id
    | begin | fetching | validating => exact absurd h id
    | extending => exact .inl h
  have hw := hinv.write (g := id) hi (le_rfl) hok.1 hok.2.1 (fun _ _ _ => rfl) (fun _ _ => rfl) (fun r hr _ => hinv.rows r hr)
    (fun r hr hfree l hl => by
      rcases hinv.seen_cases hi hr hfree with ⟨hnone, -⟩ | ⟨l', hl', hh, -, hs⟩
      · rw [id, hnone] at hl
        cases hl
      · cases hl'.symm.trans hl
        exact ⟨hh, hsees r _ hs⟩)
    (fun id hid => by
      rw [hok.2.2] at hid
      exact absurd hid not_mem_nil)
  rwa [map_id] at hw

/-! ## Enqueue -/

theorem insert (hinv : Inv w) {j : Job} {todo done : List Job} (hi : w.calls[i]? = some (.enqueue (j :: todo) done))
    (hnew : ∀ r ∈ w.rows, r.job.id ≠ j.id) (hfree : ∀ c ∈ w.calls, j.id ∉ c.inserted) :
    Inv { w.set i (.enqueue todo (done ++ [{ j with seq := w.seq }])) with seq := w.seq + 1 } := by
  obtain ⟨hstaged, hnodup⟩ := hinv.calls _ (mem_of_getElem? hi)
  have hset : ∀ {r : Row} {k : Nat} {d : Call} {view : Job}, w.calls[k]? = some d → d.Sees w.now w.token r view →
      (w.calls.set i (.enqueue todo (done ++ [{ j with seq := w.seq }])))[k]? = some d := by
    intro r k d view hd hsees
    have hne : i ≠ k := by
      rintro rfl
      cases hi.symm.trans hd
      exact hsees
    rw [getElem?_set_ne hne]
    exact hd
  refine ⟨hinv.rows, hinv.removed, hinv.ids, ?_, ?_, fun id => ?_, fun r hr l hl => ?_, ?_⟩
  · refine forall_set hinv.calls ⟨fun k hk => ?_, ?_⟩
    · rcases mem_append.1 hk with hk | hk
      · exact hstaged k (mem_append_left _ (mem_cons_of_mem _ hk))
      · refine forall_push (fun k hk => hstaged k (mem_append_right _ hk)) ?_ k hk
        exact hstaged j (mem_append_left _ mem_cons_self)
    · rw [map_append]
      refine nodup_append.2 ⟨hnodup, nodup_singleton _, fun a ha b hb hab => ?_⟩
      rw [map_singleton, mem_singleton] at hb
      exact hfree _ (mem_of_getElem? hi) (hb ▸ hab ▸ ha)
  · refine forall_set hinv.inserted ?_
    rw [Call.inserted, map_append]
    exact forall_push (hinv.inserted _ (mem_of_getElem? hi)) hnew
  · refine (hinv.apart id).set hi fun u hu => ?_
    by_cases hold : id ∈ done.map (·.id)
    · exact .inl (claims_iff.2 hold)
    · refine .inr fun d hd hclaims => ?_
      have hmem := claims_iff.1 hu
      rw [Call.inserted, map_append] at hmem
      have hid : id = j.id := mem_singleton.1 ((mem_append.1 hmem).resolve_left hold)
      exact hfree d hd (hid ▸ claims_iff.1 hclaims)
  · obtain ⟨d, hd, hsees⟩ := hinv.held r hr l hl
    exact ⟨d, hset hd hsees, hsees⟩
  · intro k d hd id hid
    rcases getElem?_set_cases hd with ⟨-, rfl⟩ | ⟨-, hd'⟩
    · exact absurd hid not_mem_nil
    · exact hinv.keeps k d hd' id hid

theorem enqueued (hinv : Inv w) {done : List Job} (hi : w.calls[i]? = some (.enqueue [] done)) :
    Inv { w.set i (.answered (.jobs done)) with rows := w.rows ++ done.map fun j => ⟨j, none, ⟨[], [], none⟩⟩ } := by
  obtain ⟨hstaged, hnodup⟩ := hinv.calls _ (mem_of_getElem? hi)
  have hnew := hinv.inserted _ (mem_of_getElem? hi)
  have hset : ∀ {k : Nat} {d : Call}, (w.calls.set i (.answered (.jobs done)))[k]? = some d →
      d = .answered (.jobs done) ∨ (k ≠ i ∧ w.calls[k]? = some d) :=
    fun hd => (getElem?_set_cases hd).imp_left And.right
  refine ⟨?_, hinv.removed, ?_, ?_, ?_, ?_, ?_, ?_⟩
  · intro r hr
    rcases mem_append.1 hr with hr' | hr'
    · exact hinv.rows r hr'
    · obtain ⟨j, hj, rfl⟩ := mem_map.1 hr'
      exact .staged (hstaged j hj)
  · rw [map_append, List.map_map]
    refine nodup_append.2 ⟨hinv.ids, hnodup, fun a ha b hb hab => ?_⟩
    obtain ⟨r, hr, rfl⟩ := mem_map.1 ha
    exact hnew b hb r hr hab
  · exact forall_set hinv.calls trivial
  · intro d hd id hid r hr heq
    obtain ⟨k, hk⟩ := mem_iff_getElem?.1 hd
    rcases hset hk with rfl | ⟨hki, hk'⟩
    · exact absurd hid not_mem_nil
    · rcases mem_append.1 hr with hr' | hr'
      · exact hinv.inserted d (mem_of_getElem? hk') id hid r hr' heq
      · -- two transactions have not inserted the same id
        obtain ⟨j, hj, rfl⟩ := mem_map.1 hr'
        have hmine : id ∈ (Call.enqueue [] done).inserted := heq ▸ mem_map_of_mem hj
        exact hki (hinv.apart id k i d _ () hk' hi (claims_iff.2 hid) (claims_iff.2 hmine))
  · exact fun id => (hinv.apart id).set hi fun _ hc => absurd (claims_iff.1 hc) not_mem_nil
  · intro r hr l hl
    rcases mem_append.1 hr with hr' | hr'
    · obtain ⟨d, hd, hsees⟩ := hinv.held r hr' l hl
      have hne : i ≠ l.holder := by
        rintro rfl
        cases hi.symm.trans hd
        exact hsees
      exact ⟨d, by rw [World.set, getElem?_set_ne hne]; exact hd, hsees⟩
    · obtain ⟨j, -, rfl⟩ := mem_map.1 hr'
      cases hl
  · intro k d hd id hid
    rcases hset hd with rfl | ⟨-, hd'⟩
    · exact absurd hid not_mem_nil
    · obtain ⟨r, hr, heq, hheld⟩ := hinv.keeps k d hd' id hid
      exact ⟨r, mem_append_left _ hr, heq, hheld⟩

end Inv

end Pgvs3.Jobs
