import Pgvs3.Queue.JobInvariant
/-!
# The statements that write job rows

One lemma for each statement that locks, writes or deletes rows. `inv_next` is the step, `inv_run`
the induction over a run.
-/

namespace Pgvs3.Jobs

open List Conc

variable {w w' : World} {i : Nat} {c c' : Call} {r r' : Row}

namespace Inv

/-! ## Locks, updates and commits -/

theorem release_of_not_heldBy (h : ¬ r.heldBy i) : r.release i = r := if_neg h

theorem commit_of_not_heldBy (h : ¬ r.heldBy i) : r.commit i = r := if_neg h

theorem commit_put (j : Job) : (r.put i j).commit i = ⟨j, none, { r.hist with lease := (Row.leaseOf j).or r.hist.lease }⟩ := by
  simp [Row.commit, Row.put, Row.heldBy, Row.seen]

variable {j : Job} {m : Mutation} {began : Int} {queue limit : Nat} {x : Answer} {l : Lock} {skip : List Nat}

theorem put_settle (hj : j.state ≠ .active) : (r.put i j).settle i m = ⟨j, none, r.hist.settle m⟩ := by
  unfold Row.settle History.settle
  rw [commit_put, Row.leaseOf, if_neg hj, Option.none_or]
  split <;> rfl

theorem not_heldBy (h : ¬ r.freeFor i) : ¬ r.heldBy i := fun hheld => h (freeFor_of_heldBy hheld)

section

variable (hinv : Inv w)
include hinv

theorem fail (hc : c.free = true) : Inv (w.fail i c) := by
  cases hi : w.calls[i]? with
  | none =>
    -- a session that does not exist holds nothing
    have hrows : w.rows.map (·.release i) = w.rows.map id := by
      refine map_congr_left fun r hr => release_of_not_heldBy ?_
      rintro ⟨l, hl, rfl⟩
      obtain ⟨d, hd, -⟩ := hinv.held r hr l hl
      cases hi.symm.trans hd
    have hcalls : w.calls.set i c = w.calls := set_eq_of_length_le (getElem?_eq_none_iff.1 hi)
    simpa only [World.fail, World.set, hcalls, hrows, map_id] using hinv
  | some d =>
    refine hinv.finish hi hc (fun r hr hnot => release_of_not_heldBy (not_heldBy hnot)) fun r hr hfree => ?_
    unfold Row.release
    split
    · exact ⟨rfl, rfl, hinv.rows r hr⟩
    · next hnot => exact ⟨rfl, lock_of_not_heldBy hfree hnot, hinv.rows r hr⟩

theorem lock_none (hi : w.calls[i]? = some c) (hc : ∀ r view, ¬ c.Sees w.now w.token r view) (hr : r ∈ w.rows)
    (hfree : r.freeFor i) : r.lock = none := by
  rcases hinv.seen_cases hi hr hfree with ⟨hnone, -⟩ | ⟨l, -, -, -, hs⟩
  · exact hnone
  · exact absurd hs (hc r _)

theorem lock (hi : w.calls[i]? = some (.begun m queue began)) (hr : r ∈ w.rows)
    (hmr : r.is queue m.id) (hfree : r.freeFor i) :
    Inv { w.set i (.read m queue began) with rows := w.rows.map fun x => if x.is queue m.id then x.put i (x.seen i) else x } := by
  have hnone : ∀ x ∈ w.rows, x.freeFor i → x.lock = none := fun x hx hf => hinv.lock_none hi (fun _ _ => id) hx hf
  have hbegan : began ≤ w.now := hinv.calls _ (mem_of_getElem? hi)
  refine hinv.write hi (le_rfl) hbegan rfl ?_ ?_ ?_ ?_ ?_
  · intro x hx hnot
    refine if_neg fun hmx => hnot ?_
    rwa [hinv.row_eq hx hr (hmx.2.trans hmr.2.symm)]
  · intro x _
    split <;> rfl
  · intro x hx _
    split
    · exact hinv.rows x hx
    · exact hinv.rows x hx
  · intro x hx hf l hl
    split at hl
    · next hmx =>
      cases hl
      rw [if_pos hmx]
      exact ⟨rfl, seen_of_lock_none (hnone x hx hf), hmx⟩
    · rw [hnone x hx hf] at hl
      cases hl
  · intro id hid
    rw [mem_singleton.1 hid]
    refine ⟨r, hr, hmr.2, ?_⟩
    rw [if_pos hmr]
    exact ⟨_, rfl, rfl⟩

theorem read_row (hi : w.calls[i]? = some (.read m queue began))
    (hr : r ∈ w.rows) (hid : r.job.id = m.id) : r.heldBy i ∧ r.seen i = r.job ∧ r.is queue m.id := by
  have hheld := hinv.heldBy_of_keeps hi hr (mem_singleton.2 hid)
  rcases hinv.seen_cases hi hr (freeFor_of_heldBy hheld) with ⟨hnone, -⟩ | ⟨l, -, -, hseen, hview, his⟩
  · obtain ⟨l, hl, -⟩ := hheld
    rw [hnone] at hl
    cases hl
  · exact ⟨hheld, hseen.trans hview, his⟩

theorem update
    (hi : w.calls[i]? = some (.read m queue began)) (hr : r ∈ w.rows) (hmr : r.is queue m.id) (hm : Mutated m began r.job j) :
    Inv { w.set i (.answered x) with rows := w.rows.map fun x => if x.is queue m.id then (x.put i j).settle i m else x } := by
  refine hinv.finish hi rfl ?_ ?_
  · intro y hy hnot
    exact if_neg fun hmy => hnot (freeFor_of_heldBy (hinv.read_row hi hy hmy.2).1)
  · intro y hy hfree
    split
    · next hmy =>
      cases hinv.row_eq hy hr (hmy.2.trans hmr.2.symm)
      rw [put_settle hm.state_ne_active]
      exact ⟨hm.id, rfl, (hinv.rows _ hr).mutate hm⟩
    · next hmy =>
      refine ⟨rfl, lock_of_not_heldBy hfree fun hheld => hmy ?_, hinv.rows y hy⟩
      obtain ⟨l, hl, hh⟩ := hheld
      rcases hinv.seen_cases hi hy hfree with ⟨hnone, -⟩ | ⟨l', -, -, -, -, his⟩
      · rw [hnone] at hl
        cases hl
      · exact his

end

/-! ## Fetch -/

theorem mem_candidates (hr : r ∈ w.candidates i queue began limit skip) : r ∈ w.rows ∧ r.freeFor i ∧ (r.seen i).fetchable began := by
  have hmem := (perm_insertionSort _ _).mem_iff.1 (mem_of_mem_take hr)
  obtain ⟨hrows, hp⟩ := mem_filter.1 hmem
  obtain ⟨-, hfree, -, hfetch⟩ := of_decide_eq_true hp
  exact ⟨hrows, hfree, hfetch⟩

theorem nodup_candidates (hinv : Inv w) : ((w.candidates i queue began limit skip).map (·.job.id)).Nodup := by
  refine List.Nodup.sublist ((take_sublist _ _).map _) ?_
  refine ((perm_insertionSort _ _).map _).nodup_iff.2 ?_
  exact hinv.ids.sublist (filter_sublist.map _)

theorem filter_eq_singleton {α : Type} {key : α → Nat} {l : List α} (hnd : (l.map key).Nodup) {x : α} (hx : x ∈ l) :
    l.filter (key · = key x) = [x] := by
  induction l with
  | nil => cases hx
  | cons y l ih =>
    obtain ⟨hy, hnd'⟩ := nodup_cons.1 (map_cons ▸ hnd)
    rcases mem_cons.1 hx with rfl | hx'
    · have hnil : l.filter (key · = key x) = [] :=
        filter_eq_nil_iff.2 fun z hz heq => hy (of_decide_eq_true heq ▸ mem_map_of_mem hz)
      rw [filter_cons_of_pos (by simp), hnil]
    · have hne : key y ≠ key x := fun heq => hy (heq ▸ mem_map_of_mem hx')
      rw [filter_cons_of_neg (by simpa using hne), ih hnd' hx']

variable {f : Fetch} {todo : List Nat} {out : List Job} {skip : List Nat}

section

variable (hinv : Inv w)
include hinv

theorem fetch_seen (hi : w.calls[i]? = some (.fetching f began todo out)) (hr : r ∈ w.rows) (hfree : r.freeFor i) :
    (r.seen i).id = r.job.id ∧ ∃ h, Sound w.now w.token (r.seen i) h ∧ h.delivered = (r.deliver out).hist.delivered ∧
      h.settled = r.hist.settled := by
  rcases hinv.seen_cases hi hr hfree with ⟨hnone, hseen⟩ | ⟨l, -, -, hseen, hid, hsound, -⟩
  · rw [hseen]
    have hout : out.filter (·.id = r.job.id) = [] := by
      refine filter_eq_nil_iff.2 fun j hj heq => ?_
      have hmem : r.job.id ∈ (Call.fetching f began todo out).keeps := of_decide_eq_true heq ▸ mem_map_of_mem hj
      obtain ⟨l, hl, -⟩ := hinv.heldBy_of_keeps hi hr hmem
      rw [hnone] at hl
      cases hl
    refine ⟨rfl, r.hist, hinv.rows r hr, ?_, rfl⟩
    simp [Row.deliver, hout]
  · rw [hseen]
    exact ⟨hid, _, hsound, rfl, rfl⟩

/-- Nobody else changes a row while a fetch holds it: until the fetch commits, the job waits or its
lease is over. -/
theorem fetch_over (hi : w.calls[i]? = some (.fetching f began todo out)) (hr : r ∈ w.rows) (hfree : r.freeFor i)
    (hfetch : (r.seen i).fetchable began) :
    r.job.state.terminal = false ∧ (r.job.state = .active → ∀ u ∈ r.job.leaseUntil, u ≤ began) := by
  rcases hinv.seen_cases hi hr hfree with ⟨-, hseen⟩ | ⟨l, -, -, -, -, -, hover⟩
  · rw [hseen] at hfetch
    obtain ⟨hstate, -, hvisible, -⟩ := hfetch
    refine ⟨?_, fun hactive u hu => hvisible u ?_⟩
    · simp only [mem_cons, not_mem_nil, or_false] at hstate
      rcases hstate with hs | hs | hs | hs <;> rw [hs] <;> rfl
    · rwa [Job.nextVisibleAt, if_pos hactive]
  · exact hover

theorem filter_leased (hi : w.calls[i]? = some (.fetching f began todo out)) (hr : r ∈ w.rows) :
    (((w.candidates i queue began limit skip).map (w.leased i f began)).insertionSort answerOrder).filter (·.id = r.job.id) =
      if r ∈ w.candidates i queue began limit skip then [w.leased i f began r] else [] := by
  have hid : ∀ x ∈ w.candidates i queue began limit skip, (w.leased i f began x).id = x.job.id := fun x hx =>
    (hinv.fetch_seen hi (mem_candidates hx).1 (mem_candidates hx).2.1).1
  have hperm : ((((w.candidates i queue began limit skip).map (w.leased i f began)).insertionSort answerOrder).filter
      (·.id = r.job.id)).Perm (((w.candidates i queue began limit skip).filter (·.job.id = r.job.id)).map (w.leased i f began)) := by
    refine ((perm_insertionSort _ _).filter _).trans (.of_eq ?_)
    rw [List.filter_map]
    refine congrArg _ (filter_congr fun x hx => ?_)
    simp [hid x hx]
  split
  · next hmem =>
    rw [filter_eq_singleton hinv.nodup_candidates hmem] at hperm
    exact perm_singleton.1 hperm
  · next hmem =>
    have hnil : (w.candidates i queue began limit skip).filter (·.job.id = r.job.id) = [] :=
      filter_eq_nil_iff.2 fun x hx heq => hmem (hinv.row_eq (mem_candidates hx).1 hr (of_decide_eq_true heq) ▸ hx)
    rw [hnil] at hperm
    exact perm_nil.1 hperm

theorem fetchQueue (hi : w.calls[i]? = some (.fetching f began (queue :: todo) out)) :
    Inv (w.fetchQueue i f began queue todo out skip) := by
  have hbegan : began ≤ w.now := hinv.calls _ (mem_of_getElem? hi)
  unfold World.fetchQueue
  generalize hcand : w.candidates i queue began (f.limit - out.length) skip = rows
  have hfilter : ∀ x ∈ w.rows, ((rows.map (w.leased i f began)).insertionSort answerOrder).filter (·.id = x.job.id) =
      if x ∈ rows then [w.leased i f began x] else [] := fun x hx => hcand ▸ hinv.filter_leased hi hx
  have hmem : ∀ x ∈ rows, x ∈ w.rows ∧ x.freeFor i ∧ (x.seen i).fetchable began := fun x hx => mem_candidates (hcand.symm ▸ hx)
  refine hinv.write hi (Nat.le_succ _) hbegan rfl ?_ ?_ ?_ ?_ ?_
  · exact fun x _ hnot => if_neg fun hx => hnot (hmem x hx).2.1
  · intro x _
    split <;> rfl
  · intro x hx _
    split
    · exact (hinv.rows x hx).mono (Int.le_rfl) (Nat.le_succ _)
    · exact (hinv.rows x hx).mono (Int.le_rfl) (Nat.le_succ _)
  · intro x hx hfree l hlock
    split at hlock
    · next hxr =>
      cases hlock
      rw [if_pos hxr]
      obtain ⟨hid, h, hsound, hdelivered, hsettled⟩ := hinv.fetch_seen hi hx hfree
      have hover := hinv.fetch_over hi hx hfree (hmem x hxr).2.2
      refine ⟨rfl, hid, ?_, hover⟩
      have hafter : (x.put i (w.leased i f began x)).afterFetch (out ++ (rows.map (w.leased i f began)).insertionSort answerOrder)
          (w.leased i f began x) = ⟨h.delivered ++ [w.token], h.settled, some (w.token, began + f.visibility)⟩ := by
        unfold Row.afterFetch Row.deliver Row.put
        rw [filter_append, hfilter x hx, if_pos hxr, filterMap_append, ← append_assoc, hdelivered, hsettled]
        rfl
      rw [hafter]
      exact hsound.lease (hmem x hxr).2.2 _ _
    · next hxr =>
      -- a row that it holds already stays as it is, and is not returned again
      rcases hinv.seen_cases hi hx hfree with ⟨hnone, -⟩ | ⟨l', hl', hh, -, hsees⟩
      · rw [hnone] at hlock
        cases hlock
      · cases hl'.symm.trans hlock
        rw [if_neg hxr]
        refine ⟨hh, hsees.1, ?_, hsees.2.2⟩
        have hafter : x.afterFetch (out ++ (rows.map (w.leased i f began)).insertionSort
            answerOrder) l.view = x.afterFetch out l.view := by
          unfold Row.afterFetch Row.deliver
          rw [filter_append, hfilter x hx, if_neg hxr, append_nil]
        rw [hafter]
        exact hsees.2.1.mono (Int.le_rfl) (Nat.le_succ _)
  · intro id hid
    rw [Call.keeps, map_append] at hid
    rcases mem_append.1 hid with hid' | hid'
    · obtain ⟨x, hx, heq, hheld⟩ := hinv.keeps i _ hi id hid'
      refine ⟨x, hx, heq, ?_⟩
      split
      · exact ⟨_, rfl, rfl⟩
      · exact hheld
    · obtain ⟨j, hj, rfl⟩ := mem_map.1 hid'
      obtain ⟨x, hxr, rfl⟩ := mem_map.1 ((perm_insertionSort _ _).mem_iff.1 hj)
      obtain ⟨hx, hfree, -⟩ := hmem x hxr
      refine ⟨x, hx, (hinv.fetch_seen hi hx hfree).1.symm, ?_⟩
      rw [if_pos hxr]
      exact ⟨_, rfl, rfl⟩

theorem fetched_other (hi : w.calls[i]? = some (.fetching f began todo out)) (hr : r ∈ w.rows) (hnot : ¬ r.heldBy i) :
    (r.deliver out).commit i = r := by
  have hout : out.filter (·.id = r.job.id) = [] := by
    refine filter_eq_nil_iff.2 fun j hj heq => hnot ?_
    exact hinv.heldBy_of_keeps hi hr (of_decide_eq_true heq ▸ mem_map_of_mem hj)
  have hsame : r.deliver out = r := by simp [Row.deliver, hout]
  rw [hsame, commit_of_not_heldBy hnot]

end

theorem fetched_held (hl : r.lock = some l) (hh : l.holder = i) : (r.deliver out).commit i = ⟨l.view, none, r.afterFetch out l.view⟩ := by
  have hheld : (r.deliver out).heldBy i := ⟨l, hl, hh⟩
  have hseen : (r.deliver out).seen i = l.view := seen_of_held hl hh
  rw [Row.commit, if_pos hheld, hseen]
  rfl

theorem fetched (hinv : Inv w) (hi : w.calls[i]? = some (.fetching f began todo out)) : Inv (w.fetched i out) := by
  refine hinv.finish hi rfl (fun x hx hnot => hinv.fetched_other hi hx (not_heldBy hnot)) fun x hx hfree => ?_
  rcases hinv.seen_cases hi hx hfree with ⟨hnone, -⟩ | ⟨l, hl, hh, -, hid, hsound, -⟩
  · rw [hinv.fetched_other hi hx fun hheld => by
      obtain ⟨l, hl, -⟩ := hheld
      rw [hnone] at hl
      cases hl]
    exact ⟨rfl, hnone, hinv.rows x hx⟩
  · rw [fetched_held hl hh]
    exact ⟨hid, rfl, hsound⟩

/-! ## Heartbeat -/

variable {h : Heartbeat} {leases : List (Nat × Nat)} {todo byQueue : List (Nat × List (Nat × Nat))}

theorem validate (hinv : Inv w) (hi : w.calls[i]? = some (.validating h began ((queue, leases) :: todo) byQueue))
    (hfree : ∀ r ∈ w.rows, World.named queue leases r → r.freeFor i) :
    Inv { w.set i (.validating h began todo byQueue) with
      rows := w.rows.map fun r => if World.named queue leases r then r.put i (r.seen i) else r } := by
  obtain ⟨hbegan, htodo, hby⟩ := hinv.calls _ (mem_of_getElem? hi)
  refine hinv.write hi (le_rfl) ⟨hbegan, ⟨htodo.nodup, fun q hq => htodo.mem q (mem_cons_of_mem _ hq)⟩, hby⟩ rfl ?_ ?_ ?_ ?_ ?_
  · exact fun x hx hnot => if_neg fun hn => hnot (hfree x hx hn)
  · intro x _
    split <;> rfl
  · intro x hx _
    split
    · exact hinv.rows x hx
    · exact hinv.rows x hx
  · intro x hx hf l hl
    rcases hinv.seen_cases hi hx hf with ⟨hnone, hseen⟩ | ⟨l', hl', hh, hseen, hview⟩
    · split at hl
      · next hn =>
        cases hl
        rw [if_pos hn]
        exact ⟨rfl, hseen⟩
      · rw [hnone] at hl
        cases hl
    · split at hl
      · next hn =>
        cases hl
        rw [if_pos hn]
        exact ⟨rfl, hseen.trans hview⟩
      · next hn =>
        cases hl'.symm.trans hl
        rw [if_neg hn]
        exact ⟨hh, hview⟩
  · exact fun id hid => absurd hid not_mem_nil

theorem extend_seen (hinv : Inv w) (hi : w.calls[i]? = some (.extending h began todo)) (hr : r ∈ w.rows) (hfree : r.freeFor i) :
    (r.seen i).state = r.job.state ∧ (r.seen i).leaseToken = r.job.leaseToken ∧
      (r.seen i).extend began h.worker h.visibility = r.job.extend began h.worker h.visibility := by
  rcases hinv.seen_cases hi hr hfree with ⟨-, hseen⟩ | ⟨l, -, -, hseen, hview | ⟨-, -, hview⟩⟩
  · rw [hseen]
    exact ⟨rfl, rfl, rfl⟩
  · rw [hseen, hview]
    exact ⟨rfl, rfl, rfl⟩
  · rw [hseen, hview]
    exact ⟨rfl, rfl, rfl⟩

theorem extend (hinv : Inv w) (hi : w.calls[i]? = some (.extending h began ((queue, leases) :: todo)))
    (hfree : ∀ r ∈ w.rows, World.extendable i queue leases r → r.freeFor i) :
    Inv { w.set i (.extending h began todo) with
      rows := w.rows.map fun r => if World.extendable i queue leases r
        then r.put i ((r.seen i).extend began h.worker h.visibility) else r } := by
  obtain ⟨hbegan, htodo⟩ := hinv.calls _ (mem_of_getElem? hi)
  refine hinv.write hi (le_rfl) ⟨hbegan, htodo.nodup, fun q hq => htodo.mem q (mem_cons_of_mem _ hq)⟩ rfl ?_ ?_ ?_ ?_ ?_
  · exact fun x hx hnot => if_neg fun hn => hnot (hfree x hx hn)
  · intro x _
    split <;> rfl
  · intro x hx _
    split
    · exact hinv.rows x hx
    · exact hinv.rows x hx
  · intro x hx hf l hl
    split at hl
    · next hext =>
      cases hl
      rw [if_pos hext]
      obtain ⟨-, hactive, t, ht, hmem⟩ := hext
      obtain ⟨hstate, htoken, hview⟩ := hinv.extend_seen hi hx hf
      rw [hstate] at hactive
      rw [htoken] at ht
      exact ⟨rfl, .inr ⟨hactive, ⟨t, ht, htodo.mem _ mem_cons_self _ hmem⟩, hview⟩⟩
    · next hext =>
      rcases hinv.seen_cases hi hx hf with ⟨hnone, -⟩ | ⟨l', hl', hh, -, hsees⟩
      · rw [hnone] at hl
        cases hl
      · cases hl'.symm.trans hl
        rw [if_neg hext]
        exact ⟨hh, hsees⟩
  · exact fun id hid => absurd hid not_mem_nil

theorem lease_eq (hinv : Inv w) (hr : r ∈ w.rows) : (Row.leaseOf r.job).or r.hist.lease = r.hist.lease := by
  unfold Row.leaseOf
  split
  · next hactive =>
    obtain ⟨-, t, u, ht, hu, -, hl, -⟩ := (hinv.rows r hr).active hactive
    simp [ht, hu, hl]
  · rfl

theorem commit_held (hl : r.lock = some l) (hh : l.holder = i) :
    r.commit i = ⟨l.view, none, { r.hist with lease := (Row.leaseOf l.view).or r.hist.lease }⟩ := by
  have hheld : r.heldBy i := ⟨l, hl, hh⟩
  rw [Row.commit, if_pos hheld, seen_of_held hl hh]

theorem extended (hinv : Inv w) (hi : w.calls[i]? = some (.extending h began [])) :
    Inv { w.set i (.answered x) with rows := w.rows.map (·.commit i) } := by
  refine hinv.finish hi rfl (fun x hx hnot => commit_of_not_heldBy (not_heldBy hnot)) fun x hx hfree => ?_
  have hsound := hinv.rows x hx
  rcases hinv.seen_cases hi hx hfree with ⟨hnone, -⟩ | ⟨l, hl, hh, -, hview | ⟨hactive, ⟨t, ht, -⟩, hview⟩⟩
  · rw [commit_of_not_heldBy fun hheld => by
      obtain ⟨l, hl, -⟩ := hheld
      rw [hnone] at hl
      cases hl]
    exact ⟨rfl, hnone, hsound⟩
  · rw [commit_held hl hh, hview, hinv.lease_eq hx]
    exact ⟨rfl, rfl, hsound⟩
  · rw [commit_held hl hh, hview]
    refine ⟨rfl, rfl, ?_⟩
    have hlease : Row.leaseOf (x.job.extend began h.worker h.visibility) = some (t, began + h.visibility) := by
      simp [Row.leaseOf, Job.extend, hactive, ht]
    rw [hlease, Option.some_or]
    exact hsound.extend hactive ht _ _

/-! ## The sweeps -/

theorem remove (hinv : Inv w) {victims : List Job} (hi : w.calls[i]? = some (.expire victims))
    (hfree : ∀ r ∈ w.rows, r.job ∈ victims → r.lock = none) :
    Inv { w.set i (.answered x) with
      rows := w.rows.filter (·.job ∉ victims)
      removed := w.removed ++ w.rows.filter (·.job ∈ victims) } := by
  have hsub : ∀ {r : Row}, r ∈ w.rows.filter (·.job ∉ victims) → r ∈ w.rows := fun hr => mem_of_mem_filter hr
  refine ⟨fun r hr => hinv.rows r (hsub hr), ?_, hinv.ids.sublist (filter_sublist.map _), ?_, ?_, ?_, ?_, ?_⟩
  · intro r hr
    rcases mem_append.1 hr with hr' | hr'
    · exact hinv.removed r hr'
    · exact hinv.rows r (mem_of_mem_filter hr')
  · exact forall_set hinv.calls trivial
  · exact forall_set (fun d hd id hid r hr => hinv.inserted d hd id hid r (hsub hr)) nofun
  · exact fun id => (hinv.apart id).set hi fun _ hc => absurd (claims_iff.1 hc) not_mem_nil
  · intro r hr l hl
    obtain ⟨d, hd, hsees⟩ := hinv.held r (hsub hr) l hl
    have hne : i ≠ l.holder := by
      rintro rfl
      cases hi.symm.trans hd
      exact hsees
    exact ⟨d, by rw [World.set, getElem?_set_ne hne]; exact hd, hsees⟩
  · intro k d hd id hid
    rcases getElem?_set_cases hd with ⟨-, rfl⟩ | ⟨-, hd'⟩
    · exact absurd hid not_mem_nil
    · obtain ⟨r, hr, heq, l, hl, hk⟩ := hinv.keeps k d hd' id hid
      refine ⟨r, mem_filter.2 ⟨hr, decide_eq_true fun hv => ?_⟩, heq, l, hl, hk⟩
      rw [hfree r hr hv] at hl
      cases hl

theorem mem_spentRows (hr : r ∈ w.spentRows queue limit began skip) : r ∈ w.rows ∧ r.lock = none ∧ r.job.spent began := by
  have hmem := (perm_insertionSort _ _).mem_iff.1 (mem_of_mem_take hr)
  obtain ⟨hrows, hp⟩ := mem_filter.1 hmem
  obtain ⟨-, hlock, -, hspent⟩ := of_decide_eq_true hp
  exact ⟨hrows, hlock, hspent⟩

theorem discard (hinv : Inv w) (hi : w.calls[i]? = some (.discard queue limit began)) : Inv (w.discardRows i queue limit began skip) := by
  have hbegan : began ≤ w.now := hinv.calls _ (mem_of_getElem? hi)
  refine hinv.finish hi rfl ?_ fun x hx hfree => ?_
  · intro x _ hnot
    refine if_neg fun hmem => hnot fun l hl => ?_
    rw [(mem_spentRows hmem).2.1] at hl
    cases hl
  · have hnone := hinv.lock_none hi (fun _ _ => id) hx hfree
    split
    · next hmem => exact ⟨rfl, hnone, (hinv.rows x hx).discard (mem_spentRows hmem).2.2 hbegan⟩
    · exact ⟨rfl, hnone, hinv.rows x hx⟩

end Inv

/-! ## Every run -/

theorem inv_init (cfg : Config) (now : Int) : Inv (.init cfg now) :=
  ⟨fun _ hr => absurd hr not_mem_nil, fun _ hr => absurd hr not_mem_nil, nodup_nil, fun _ hc => absurd hc not_mem_nil,
    fun _ hc => absurd hc not_mem_nil, fun _ _ _ _ _ _ hc => absurd hc (by simp [World.init]),
    fun _ hr => absurd hr not_mem_nil, fun _ _ hc => absurd hc (by simp [World.init])⟩

theorem mem_of_find {rows : List Row} {queue id : Nat} (hr : rows.find? (·.is queue id) = some r) : r ∈ rows ∧ r.is queue id :=
  ⟨mem_of_find?_eq_some hr, by simpa using find?_some hr⟩

variable {a : Act}

theorem inv_step (hinv : Inv w) (hstep : Step w a w') : Inv w' := by
  cases hstep with
  | connect => exact hinv.connect
  | elapse time => exact hinv.elapse time
  | place _ i hi hp => exact hinv.place hi hp
  | fail _ i c hc => exact hinv.fail hc
  | insert i skip j todo done hi hnew hfree => exact hinv.insert hi hnew hfree
  | enqueued i skip done hi => exact hinv.enqueued hi
  | lock i skip m queue began r hi hr hfree =>
    obtain ⟨hmem, his⟩ := mem_of_find hr
    exact hinv.lock hi hmem his hfree
  | update i skip m queue began r j hi hr hj =>
    obtain ⟨hmem, his⟩ := mem_of_find hr
    rw [(hinv.read_row hi hmem his.2).2.1] at hj
    exact hinv.update hi hmem his (mutated_of_mutate hj)
  | fetchQueue i skip f began queue todo out hi => exact hinv.fetchQueue hi
  | fetched i skip f began todo out hi => exact hinv.fetched hi
  | validate i skip h began queue leases todo byQueue hi hfree => exact hinv.validate hi hfree
  | extend i skip h began queue leases todo hi hfree => exact hinv.extend hi hfree
  | extended i skip h began hi => exact hinv.extended hi
  | remove i skip victims hi hfree => exact hinv.remove hi hfree
  | discard i skip queue limit began hi => exact hinv.discard hi

theorem inv_next (hinv : Inv w) (hn : next w a = some w') : Inv w' := inv_step hinv (step_of_next hn)

theorem inv_run {acts : List Act} (hinv : Inv w) (hrun : machine.run w acts = some w') : Inv w' :=
  Machine.run_invariant (M := machine) (fun _ _ _ h hn => inv_next h hn) hinv hrun

end Pgvs3.Jobs
