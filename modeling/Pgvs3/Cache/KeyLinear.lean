import Pgvs3.Cache.KeyOps
/-!
# The operations on one cache key are linearizable when clocks are fresh

An operation takes effect at its commit, when `publish_value` refuses a `SET`, when `GETDEL` finds
no row, or, for a `mutate` that writes nothing, at its snapshot. Without freshness the order can
fail: `now()` is the beginning of a transaction, which may get the key's lock after the row that it
takes for live has expired.
-/

namespace Pgvs3.KeyOps

open Conc (Event Status Tracks)
open List Option Function

variable {lib : Lib} {now later : Nat} {row old : Option Row} {op : Op} {opts : SetOptions}

/-! ## What is visible of a row -/

@[simp] theorem live_itemOf (r : Row) : (itemOf r).live now = r.live now := rfl

@[simp] theorem expire_none : expire now none = none := rfl

theorem expire_some (it : Item) : expire now (some it) = if it.live now then some it else none := filter_some

theorem visible_some (r : Row) : visible now (some r) = if r.live now then some (itemOf r) else none := expire_some (itemOf r)

theorem visible_of_live {r : Row} (h : r.live now = true) : visible now (some r) = some (itemOf r) := by
  rw [visible_some, if_pos h]

theorem visible_of_dead (h : liveOld row now = false) : visible now row = none := by
  cases row with
  | none => rfl
  | some r =>
    have hr : r.live now = false := h
    simp [visible_some, hr]

theorem isSome_visible : (visible now row).isSome = liveOld row now := by
  cases row with
  | none => rfl
  | some r => cases hr : r.live now <;> simp [visible_some, liveOld, hr]

theorem visible_congr (h : liveOld row now = liveOld row later) : visible now row = visible later row := by
  cases row with
  | none => rfl
  | some r =>
    have hr : r.live now = r.live later := h
    rw [visible_some, visible_some, hr]

theorem map_filter_live (row : Option Row) : (row.filter (·.live now)).map itemOf = visible now row := by
  cases row with
  | none => rfl
  | some r => cases hr : r.live now <;> simp [visible_some, filter_some, hr]

theorem Item.live_of_le {it : Item} (h : now ≤ later) (hl : it.live later = true) : it.live now = true := by
  unfold Item.live at *
  split at hl
  · rfl
  · simp only [decide_eq_true_eq] at *
    omega

theorem expire_expire (h : now ≤ later) (s : Option Item) : expire later (expire now s) = expire later s := by
  cases s with
  | none => rfl
  | some it =>
    cases hl : it.live later with
    | true => simp [expire_some, hl, Item.live_of_le h hl]
    | false => cases hn : it.live now <;> simp [expire_some, hl, hn]

variable {s t : Option Item} {m : Mutation} {r : Reply} {val : Bytes} {c : Nat}

theorem expire_congr (h : now ≤ later) (hst : expire now s = expire now t) : expire later s = expire later t := by
  rw [← expire_expire h s, hst, expire_expire h t]

theorem expire_visible : expire now (visible now row) = visible now row := expire_expire (Nat.le_refl now) _

/-! ## What is published -/

variable {cond : Precondition} {seen : Option Row}

theorem allows_precondition (c : When) (found : Bool) (etag : Text) : c.precondition.allows found etag = c.allows found := by
  cases c <;> rfl

theorem sqlAllows_precondition (c : When) (found : Bool) (etag : Text) : c.precondition.sqlAllows found etag = c.allows found := by
  cases c <;> rfl

theorem newExpiry_publishArgs (lib : Lib) (val : Bytes) (opts : SetOptions) (cond : Precondition) (old : Option Row) (now : Nat) :
    (publishArgs lib val opts cond).newExpiry old now = opts.expiry (visible now old) := by
  cases old with
  | none => rfl
  | some r =>
    cases hr : r.live now with
    | true => simp [PublishArgs.newExpiry, publishArgs, hr, visible_of_live hr, SetOptions.expiry, itemOf]
    | false =>
      simp [PublishArgs.newExpiry, publishArgs, hr,
      visible_of_dead (show liveOld (some r) now = false from hr), SetOptions.expiry]

/-- No version is expected, so the row is always written. -/
theorem write_publishArgs (lib : Lib) (val : Bytes) (opts : SetOptions) (cond : Precondition) (old : Option Row) (now : Nat) :
    ∃ r, (publishArgs lib val opts cond).write old now = some r ∧ itemOf r = ⟨val, opts.expiry (visible now old)⟩ ∧
      r.etag = lib.md5 r.body :=
  ⟨_, rfl, by rw [← newExpiry_publishArgs lib val opts cond]; rfl, rfl⟩

theorem check_publishArgs : (publishArgs lib val opts cond).check old now = .ok ↔
    cond.sqlAllows (liveOld old now) (etagOld old) = true := by
  cases h : cond.sqlAllows (liveOld old now) (etagOld old) <;>
    simp [PublishArgs.check, publishArgs, PublishArgs.versionDiffers, h]

/-! ## Implementations and the sequential key -/

/-- The row's ETag is that of its content. -/
def Row.Tagged (lib : Lib) (row : Option Row) : Prop := ∀ r, row = some r → r.etag = lib.md5 r.body

theorem Row.Tagged.filter (h : Row.Tagged lib row) (p : Row → Bool) : Row.Tagged lib (row.filter p) := by
  intro r hr
  exact h r (filter_eq_some_iff.1 hr).1

theorem run_mutation (hm : op.mutation = some m) (s : Option Item) : op.run s =
      if m.opts.cond.allows s.isSome then
        match m.apply (s.map Item.value) with
        | .error e => .error e
        | .ok next => .ok (m.reply (s.map Item.value) (some next), some ⟨next, m.opts.expiry s⟩)
      else .ok (m.reply (s.map Item.value) none, s) := by
  -- `KEEPTTL` leaves the expiry that there is
  have hkeep : keepTTL.expiry s = s.bind Item.expiresAt := by cases s <;> rfl
  cases op with
  | set | getDel | del => cases hm
  | getSet val opts =>
    cases hm
    rfl
  | append | setRange =>
    cases hm
    simp [Op.run, keepTTL, When.allows, ← hkeep]
  | incrBy delta =>
    cases hm
    cases hi : increment delta (s.map Item.value) <;>
      simp [Op.run, keepTTL, When.allows, ← hkeep, hi, Except.map, Except.toOption]

theorem map_value_map_itemOf (seen : Option Row) : (seen.map itemOf).map Item.value = seen.map ObjectRow.body := by
  cases seen <;> rfl

theorem run_of_refuse (hm : op.mutation = some m)
    (hj : m.judge lib seen = .refuse r) : op.run (seen.map itemOf) = .ok (r, seen.map itemOf) := by
  unfold Mutation.judge at hj
  split at hj
  · cases hj
  · split at hj
    · next hno =>
      cases hj
      rw [allows_precondition] at hno
      rw [run_mutation hm, map_value_map_itemOf, isSome_map, if_neg (by simpa using hno)]
    · split at hj <;> cases hj

/-- A round of `mutate` that writes: what it read is still there, so it replies and leaves the key
as the operation alone. -/
theorem run_of_judge {args : PublishArgs Unit Bytes} (hmd5 : Injective lib.md5)
    (hm : op.mutation = some m) (hj : m.judge lib seen = .write args r) (hseen : Row.Tagged lib seen)
    (hold : Row.Tagged lib old) (hcheck : args.check old now = .ok) :
    ∃ new, args.write old now = some new ∧ op.run (visible now old) = .ok (r, some (itemOf new)) ∧ new.etag = lib.md5 new.body := by
  unfold Mutation.judge at hj
  split at hj
  · cases hj
  split at hj
  · cases hj
  next hallow =>
  split at hj
  · cases hj
  next next happly =>
  cases hj
  obtain ⟨new, hnew, hitem, htag⟩ := write_publishArgs lib next m.opts (Mutation.expects seen) old now
  refine ⟨new, hnew, ?_, htag⟩
  rw [check_publishArgs] at hcheck
  rw [allows_precondition, Bool.not_eq_true, Bool.not_eq_false'] at hallow
  -- the row that the write expects has the value that the round read
  have hsame : (visible now old).map Item.value = seen.map ObjectRow.body := by
    cases seen with
    | none =>
      have hdead : liveOld old now = false := by simpa [Mutation.expects, Precondition.sqlAllows] using hcheck
      rw [visible_of_dead hdead]
      rfl
    | some s =>
      simp only [Mutation.expects, Precondition.sqlAllows, Bool.and_eq_true, beq_iff_eq] at hcheck
      cases old with
      | none => cases hcheck.1
      | some o =>
        have hbody : o.body = s.body := hmd5 (by rw [← hold o rfl, ← hseen s rfl]; exact hcheck.2)
        rw [visible_of_live hcheck.1]
        simp [itemOf, hbody]
  have hsome : (visible now old).isSome = seen.isSome := by
    rw [← isSome_map, hsame, isSome_map]
  rw [run_mutation hm, hsome, if_pos hallow, hsame, happly, hitem]

theorem run_set (hallow : opts.cond.allows (liveOld old now) = true) : ∃ new, (setWrite lib val opts).args.write old now = some new ∧
      (Op.set val opts).run (visible now old) = .ok (.wrote true, some (itemOf new)) ∧ new.etag = lib.md5 new.body := by
  obtain ⟨new, hnew, hitem, htag⟩ := write_publishArgs lib val opts opts.cond.precondition old now
  refine ⟨new, hnew, ?_, htag⟩
  rw [hitem, Op.run, isSome_visible, if_pos hallow]

theorem run_set_refused (hcheck : (setWrite lib val opts).args.check old now ≠ .ok) :
    (Op.set val opts).run (visible now old) = .ok (.wrote false, visible now old) := by
  have hno : ¬opts.cond.allows (liveOld old now) = true := by
    rwa [setWrite, Ne, check_publishArgs, sqlAllows_precondition] at hcheck
  rw [Op.run, isSome_visible, if_neg hno]

/-! ## The invariant -/

/-- The write is what the operation publishes, made by `Set` or by a round of `mutate`. -/
def Intends (lib : Lib) (op : Op) (wr : Write) : Prop :=
  (∃ val opts, op = .set val opts ∧ wr = setWrite lib val opts) ∨
    ∃ m seen a, op.mutation = some m ∧ Row.Tagged lib seen ∧ m.judge lib seen = .write wr.args wr.reply ∧ wr.attempt = some a

def Tx.Suits (lib : Lib) (op : Op) : Tx → Prop
  | .publish wr => Intends lib op wr
  | .getDel => op = .getDel
  | .del => op = .del

/-- What client `c` knows at a place of its operation. -/
def Sound (lib : Lib) (w : World) (c : Nat) (op : Op) : Place → Prop
  | .called | .looking _ | .reading .. | .done _ => True
  | .fetched _ row => Row.Tagged lib row
  | .ready wr => Intends lib op wr
  | .begun tx _ => tx.Suits lib op
  | .locked tx _ => tx.Suits lib op ∧ w.lock = some c
  | .checked wr began => Intends lib op wr ∧ w.lock = some c ∧
      (wr.args.reads = true → w.rowLocked = true ∧ wr.args.check w.row began = .ok)
  | .deleted r => op = .getDel ∧ w.lock = some c ∧ w.rowLocked = true ∧ w.row = some r
  | .drafted judged draft reply => w.lock = some c ∧ w.rowLocked = true ∧ Row.Tagged lib draft ∧
      op.run (visible judged w.row) = .ok (reply, draft.map itemOf)

/-- What the holder of the key's lock can rely on. -/
def Keeps (c : Nat) (w w' : World) : Prop :=
  w.lock = some c → w'.lock = some c ∧ (w.rowLocked = true → w'.rowLocked = true ∧ w'.row = w.row)

theorem Sound.keep {w w' : World} {p : Place} (h : Sound lib w c op p) (hk : Keeps c w w') : Sound lib w' c op p := by
  cases p with
  | called | looking | reading | done => trivial
  | fetched | ready | begun => exact h
  | locked tx began => exact ⟨h.1, (hk h.2).1⟩
  | checked wr began =>
    obtain ⟨hwr, hlock, hread⟩ := h
    refine ⟨hwr, (hk hlock).1, fun hr => ?_⟩
    obtain ⟨hrow, hcheck⟩ := hread hr
    obtain ⟨hrow', heq⟩ := (hk hlock).2 hrow
    exact ⟨hrow', heq ▸ hcheck⟩
  | deleted r =>
    obtain ⟨hop, hlock, hrow, hr⟩ := h
    obtain ⟨hrow', heq⟩ := (hk hlock).2 hrow
    exact ⟨hop, (hk hlock).1, hrow', heq ▸ hr⟩
  | drafted judged draft reply =>
    obtain ⟨hlock, hrow, htag, hrun⟩ := h
    obtain ⟨hrow', heq⟩ := (hk hlock).2 hrow
    exact ⟨(hk hlock).1, hrow', htag, heq ▸ hrun⟩

def Op.judge (lib : Lib) (op : Op) (seen : Option Row) : Option Verdict := (op.mutation).map (Mutation.judge lib · seen)

/-- A `mutate` that will write nothing has taken effect with its read. -/
def Client.status (lib : Lib) : Client → Status Op Reply
  | .idle => .idle
  | .busy id op (.fetched _ row) =>
    match op.judge lib row with
    | some (.refuse r) => .settled id (some r)
    | _ => .pending id op
  | .busy id _ (.done result) => .settled id result.toOption
  | .busy id op _ => .pending id op

def World.status (lib : Lib) (w : World) (c : Nat) : Status Op Reply := (w.clients c).status lib

structure Inv (lib : Lib) (key : Option Item) (w : World) : Prop where
  tagged : Row.Tagged lib w.row
  sound : ∀ c id op p, w.clients c = .busy id op p → Sound lib w c op p
  tracked : ∃ points final, Tracks spec key final w.history points w.now w.next (w.status lib) ∧
    expire w.now final = visible w.now w.row

theorem Inv.start (lib : Lib) (now : Nat) (key : Option Item) : Inv lib key (.start lib now key) where
  tagged r hr := by
    obtain ⟨it, -, rfl⟩ := map_eq_some_iff.1 hr
    rfl
  sound c id op p hc := nomatch hc
  tracked := by
    refine ⟨[], key, Tracks.start spec key now 0, ?_⟩
    cases key <;> rfl

/-! ## Steps -/

/-- The row and the locks change, and client `i` moves to another place. -/
def World.move (w : World) (i : Nat) (row : Option Row) (lock : Option Nat) (rowLocked : Bool) (c : Client) : World :=
  { w with row := row, lock := lock, rowLocked := rowLocked }.put i c

theorem status_put (w : World) (i : Nat) (c : Client) : (w.put i c).status lib = update (w.status lib) i (c.status lib) :=
  comp_update (Client.status lib) w.clients i c

theorem status_move (w : World) (i : Nat) (row : Option Row) (lock : Option Nat) (b : Bool) (c : Client) :
    (w.move i row lock b c).status lib = update (w.status lib) i (c.status lib) :=
  status_put _ i c

namespace Inv

variable {key : Option Item} {w w' : World} {i id : Nat} {p p' : Place} {lock : Option Nat} {b : Bool}

section

variable (h : Inv lib key w)
include h

theorem sound_put {c₀ : Client} (hc₀ : w'.clients = update w.clients i c₀) (hkeep : ∀ c, c ≠ i → Keeps c w w')
    (hnew : ∀ id op q, c₀ = .busy id op q → Sound lib w' i op q) (c id : Nat) (op : Op) (q : Place) (hc : w'.clients c = .busy id op q) :
    Sound lib w' c op q := by
  rw [hc₀] at hc
  by_cases hci : c = i
  · subst hci
    rw [update_self] at hc
    exact hnew id op q hc
  · rw [update_of_ne hci] at hc
    exact (h.sound c id op q hc).keep (hkeep c hci)

theorem of_move (hkeep : ∀ c, c ≠ i → Keeps c w (w.move i row lock b (.busy id op p')))
    (htag : Row.Tagged lib row) (hsound : Sound lib (w.move i row lock b (.busy id op p')) i op p')
    (htrack : ∃ points final, Tracks spec key final w.history points w.now w.next
      (update (w.status lib) i ((Client.busy id op p').status lib)) ∧ expire w.now final = visible w.now row) :
    Inv lib key (w.move i row lock b (.busy id op p')) where
  tagged := htag
  sound := h.sound_put rfl hkeep fun _ _ _ hc => by cases hc; exact hsound
  tracked := by
    rw [status_move]
    exact htrack

theorem stay (hi : w.clients i = .busy id op p) (hst : (Client.busy id op p').status lib = (Client.busy id op p).status lib)
    (hkeep : ∀ c, c ≠ i → Keeps c w (w.move i w.row lock b (.busy id op p')))
    (hsound : Sound lib (w.move i w.row lock b (.busy id op p')) i op p') : Inv lib key (w.move i w.row lock b (.busy id op p')) := by
  refine h.of_move hkeep h.tagged hsound ?_
  obtain ⟨points, final, T, hfinal⟩ := h.tracked
  refine ⟨points, final, ?_, hfinal⟩
  have heq : w.status lib i = (Client.busy id op p').status lib := by rw [World.status, hi, hst]
  rwa [← heq, update_eq_self]

theorem fails (hi : w.clients i = .busy id op p) (hp : (Client.busy id op p).status lib = .pending id op) (e : Err)
    (hkeep : ∀ c, c ≠ i → Keeps c w (w.move i w.row lock b (.busy id op (.done (.error e))))) :
    Inv lib key (w.move i w.row lock b (.busy id op (.done (.error e)))) := by
  refine h.of_move hkeep h.tagged trivial ?_
  obtain ⟨points, final, T, hfinal⟩ := h.tracked
  exact ⟨points, final, T.fail (by rw [World.status, hi, hp]), hfinal⟩

theorem acts (hi : w.clients i = .busy id op p) (hp : (Client.busy id op p).status lib = .pending id op)
    {left : Option Item} (hp' : (Client.busy id op p').status lib = .settled id (some r))
    (hrun : op.run (visible w.now w.row) = .ok (r, left)) (hleft : expire w.now left = visible w.now row)
    (hkeep : ∀ c, c ≠ i → Keeps c w (w.move i row lock b (.busy id op p'))) (htag : Row.Tagged lib row)
    (hsound : Sound lib (w.move i row lock b (.busy id op p')) i op p') : Inv lib key (w.move i row lock b (.busy id op p')) := by
  refine h.of_move hkeep htag hsound ?_
  obtain ⟨points, final, T, hfinal⟩ := h.tracked
  rw [hp']
  exact ⟨_, left, T.point (by rw [World.status, hi, hp]) (by rw [spec, hfinal, hrun]; rfl), hleft⟩

end

end Inv

theorem Keeps.of_lock {w w' : World} {i : Nat} (hlock : w.lock = some i) (hc : c ≠ i) : Keeps c w w' := by
  intro hc'
  cases hlock.symm.trans hc'
  exact absurd rfl hc

theorem Keeps.of_free {w w' : World} (hlock : w.lock = none) : Keeps c w w' := by
  intro hc
  cases hlock.symm.trans hc

theorem Keeps.of_eq {w w' : World} (hlock : w'.lock = w.lock) (hrow : w'.row = w.row) (hb : w'.rowLocked = w.rowLocked) :
    Keeps c w w' := fun hc => ⟨hlock ▸ hc, fun h => ⟨hb ▸ h, hrow⟩⟩

namespace Inv

variable {key : Option Item} {w w' : World} {i id : Nat} {p : Place}

variable {a began : Nat} {wr : Write}

theorem looking (h : Inv lib key w) (hi : w.clients i = .busy id op (.looking a)) :
    Inv lib key (w.put i (.busy id op (.reading a w.now))) :=
  h.stay hi rfl (fun _ _ => .of_eq rfl rfl rfl) trivial

/-- The read takes its snapshot. An operation that will write nothing takes effect. -/
theorem reading (h : Inv lib key w) (hi : w.clients i = .busy id op (.reading a began)) (hf : liveOld w.row began = liveOld w.row w.now) :
    Inv lib key (w.put i (.busy id op (.fetched a (w.row.filter (·.live began))))) := by
  have htag := h.tagged.filter (·.live began)
  have hview : (w.row.filter (·.live began)).map itemOf = visible w.now w.row := by rw [map_filter_live, visible_congr hf]
  cases hj : op.judge lib (w.row.filter (·.live began)) with
  | none => exact h.stay hi (by simp [Client.status, hj]) (fun _ _ => .of_eq rfl rfl rfl) htag
  | some v =>
    obtain ⟨m, hm, hv⟩ := map_eq_some_iff.1 hj
    cases v with
    | fail | write => exact h.stay hi (by simp [Client.status, hj]) (fun _ _ => .of_eq rfl rfl rfl) htag
    | refuse r =>
      have hrun := run_of_refuse hm hv
      rw [hview] at hrun
      exact h.acts hi rfl (by simp [Client.status, hj]) hrun expire_visible (fun _ _ => .of_eq rfl rfl rfl) h.tagged htag

theorem fetched (h : Inv lib key w) (hi : w.clients i = .busy id op (.fetched a row))
    (hf : liveOld row w.now = row.isSome) (hm : op.mutation = some m) {place : Place}
    (hplace : place = match m.judge lib (row.filter (·.live w.now)) with
      | .fail e => .done (.error e)
      | .refuse r => .done (.ok r)
      | .write args r => .ready ⟨args, r, some a⟩) : Inv lib key (w.put i (.busy id op place)) := by
  have htag : Row.Tagged lib row := h.sound i id op _ hi
  have hrow : row.filter (·.live w.now) = row := by
    cases row with
    | none => rfl
    | some r => exact filter_eq_some_iff.2 ⟨rfl, hf⟩
  rw [hrow] at hplace
  cases hj : m.judge lib row with
  | fail e =>
    rw [hj] at hplace
    subst hplace
    exact h.fails hi (by simp [Client.status, Op.judge, hm, hj]) e fun _ _ => .of_eq rfl rfl rfl
  | refuse r =>
    rw [hj] at hplace
    subst hplace
    exact h.stay hi (by simp [Client.status, Op.judge, hm, hj, Except.toOption]) (fun _ _ => .of_eq rfl rfl rfl) trivial
  | write args r =>
    rw [hj] at hplace
    subst hplace
    exact h.stay hi (by simp [Client.status, Op.judge, hm, hj]) (fun _ _ => .of_eq rfl rfl rfl)
      (.inr ⟨m, row, a, hm, htag, hj, rfl⟩)

/-- `publish_value` answers `precondition`. A `SET` takes effect. -/
theorem refused (h : Inv lib key w) (hi : w.clients i = .busy id op (.locked (.publish wr) began))
    (hf : liveOld w.row began = liveOld w.row w.now) (hcheck : wr.args.check w.row began ≠ .ok) :
    Inv lib key (w.release.put i (.busy id op (World.refused op wr.attempt))) := by
  obtain ⟨hwr, hlock⟩ : Intends lib op wr ∧ w.lock = some i := h.sound i id op _ hi
  rcases hwr with ⟨val, opts, rfl, rfl⟩ | ⟨m, seen, a, hm, -, -, ha⟩
  · have hrun := run_set_refused hcheck
    rw [visible_congr hf] at hrun
    exact h.acts hi rfl rfl hrun expire_visible (fun c hc => .of_lock hlock hc) h.tagged trivial
  · have hplace : World.refused op wr.attempt =
        if m.retries = 0 ∨ a + 1 < m.retries then .looking (a + 1) else .done (.error .contention) := by
      simp [World.refused, ha, hm]
    rw [hplace]
    split
    · exact h.stay hi rfl (fun c hc => .of_lock hlock hc) trivial
    · exact h.fails hi rfl .contention fun c hc => .of_lock hlock hc

theorem checked (hmd5 : op.mutation.isSome = true → Injective lib.md5) (h : Inv lib key w)
    (hi : w.clients i = .busy id op (.checked wr began)) :
    ∃ new, wr.args.write w.row began = some new ∧ op.run (visible began w.row) = .ok (wr.reply, some (itemOf new)) ∧
      new.etag = lib.md5 new.body := by
  obtain ⟨hwr, -, hread⟩ : Intends lib op wr ∧ w.lock = some i ∧ (wr.args.reads = true → _) := h.sound i id op _ hi
  rcases hwr with ⟨val, opts, rfl, rfl⟩ | ⟨m, seen, a, hm, hseen, hj, -⟩
  · refine run_set ?_
    -- without a condition nothing was read
    cases hc : opts.cond with
    | always => rfl
    | nx | xx =>
      have hcheck := (hread (by simp [setWrite, publishArgs, PublishArgs.reads, When.precondition, hc])).2
      rwa [setWrite, check_publishArgs, sqlAllows_precondition, hc] at hcheck
  · have hreads : wr.args.reads = true := by
      unfold Mutation.judge at hj
      split at hj
      · cases hj
      split at hj
      · cases hj
      split at hj
      · cases hj
      · injection hj with hargs hreply
        rw [← hargs]
        cases seen <;> rfl
    exact run_of_judge (hmd5 (by simp [hm])) hm hj hseen h.tagged (hread hreads).2

theorem advance (hmd5 : op.mutation.isSome = true → Injective lib.md5) (h : Inv lib key w) (hi : w.clients i = .busy id op p)
    (hf : fresh w (.step i) = true) (hn : w.advance lib i id op p = some w') : Inv lib key w' := by
  simp only [fresh, hi] at hf
  cases p with
  | called =>
    cases hn
    cases op with
    | set val opts => exact h.stay hi rfl (fun _ _ => .of_eq rfl rfl rfl) (.inl ⟨val, opts, rfl, rfl⟩)
    | getDel | del => exact h.stay hi rfl (fun _ _ => .of_eq rfl rfl rfl) rfl
    | getSet | append | setRange | incrBy =>
      simp only
      split
      · exact h.fails hi rfl .offset fun _ _ => .of_eq rfl rfl rfl
      · exact h.stay hi rfl (fun _ _ => .of_eq rfl rfl rfl) trivial
  | looking a =>
    cases hn
    exact h.looking hi
  | reading a began =>
    cases hn
    exact h.reading hi (beq_iff_eq.1 hf)
  | fetched a row =>
    simp only [World.advance] at hn
    split at hn
    · cases hn
    · next m hm =>
      cases hn
      exact h.fetched hi (beq_iff_eq.1 hf) hm rfl
  | ready wr =>
    cases hn
    exact h.stay hi rfl (fun _ _ => .of_eq rfl rfl rfl) (h.sound i id op _ hi)
  | begun tx began =>
    simp only [World.advance] at hn
    split at hn
    · next hfree =>
      cases hn
      exact h.stay hi rfl (fun _ _ => .of_free hfree) ⟨h.sound i id op _ hi, rfl⟩
    · cases hn
  | locked tx began =>
    obtain ⟨htx, hlock⟩ : tx.Suits lib op ∧ w.lock = some i := h.sound i id op _ hi
    cases tx with
    | publish wr =>
      simp only [World.advance] at hn
      split at hn
      · next hreads =>
        split at hn
        · next hok =>
          cases hn
          exact h.stay hi rfl (fun c hc => .of_lock hlock hc) ⟨htx, hlock, fun _ => ⟨rfl, hok⟩⟩
        · next hno =>
          cases hn
          exact h.refused hi (beq_iff_eq.1 hf) hno
      · next hreads =>
        cases hn
        exact h.stay hi rfl (fun c hc => .of_lock hlock hc) ⟨htx, hlock, fun hr => absurd hr hreads⟩
    | getDel =>
      cases htx
      simp only [World.advance] at hn
      split at hn
      · next hrow =>
        cases hn
        exact h.acts hi rfl rfl (by rw [hrow]; rfl) (by rw [hrow]; rfl) (fun c hc => .of_lock hlock hc) h.tagged trivial
      · next r hrow =>
        cases hn
        exact h.stay hi rfl (fun c hc => .of_lock hlock hc) ⟨rfl, hlock, rfl, hrow⟩
    | del =>
      cases htx
      cases hn
      refine h.stay hi rfl (fun c hc => .of_lock hlock hc) ⟨hlock, rfl, nofun, ?_⟩
      rw [Op.run, isSome_visible]
      rfl
  | checked wr began =>
    obtain ⟨-, hlock, -⟩ : Intends lib op wr ∧ w.lock = some i ∧ _ := h.sound i id op _ hi
    obtain ⟨new, hnew, hrun, htag⟩ := h.checked hmd5 hi
    simp only [World.advance, hnew] at hn
    cases hn
    refine h.stay hi rfl (fun c hc => .of_lock hlock hc) ⟨hlock, rfl, fun r hr => ?_, hrun⟩
    cases hr
    exact htag
  | deleted r =>
    obtain ⟨rfl, hlock, hlocked, hrow⟩ : op = .getDel ∧ _ := h.sound i id op _ hi
    cases hn
    refine h.stay hi rfl (fun c hc => .of_lock hlock hc) ⟨hlock, hlocked, nofun, ?_⟩
    show Op.run .getDel (visible w.now w.row) = _
    rw [hrow, visible_some, Op.run]
    split <;> rfl
  | drafted judged draft reply =>
    obtain ⟨hlock, -, htag, hrun⟩ : w.lock = some i ∧ _ := h.sound i id op _ hi
    cases hn
    rw [visible_congr (beq_iff_eq.1 hf)] at hrun
    exact h.acts hi rfl rfl hrun rfl (fun c hc => .of_lock hlock hc) htag trivial
  | done result => cases hn

theorem call (h : Inv lib key w) (i : Nat) (op : Op) :
    Inv lib key ({ w with next := w.next + 1, history := w.history ++ [Event.call w.next op w.now] }.put i
      (.busy w.next op .called)) where
  tagged := h.tagged
  sound := h.sound_put rfl (fun _ _ => .of_eq rfl rfl rfl) fun _ _ _ hc => by cases hc; trivial
  tracked := by
    obtain ⟨points, final, T, hfinal⟩ := h.tracked
    refine ⟨points, final, ?_, hfinal⟩
    rw [status_put]
    exact T.call i op

theorem answer (h : Inv lib key w) {result : Except Err Reply} (hi : w.clients i = .busy id op (.done result)) :
    Inv lib key ({ w with history := w.history ++ [Event.answer id result.toOption w.now] }.put i .idle) where
  tagged := h.tagged
  sound := h.sound_put rfl (fun _ _ => .of_eq rfl rfl rfl) fun _ _ _ hc => by cases hc
  tracked := by
    obtain ⟨points, final, T, hfinal⟩ := h.tracked
    refine ⟨points, final, ?_, hfinal⟩
    rw [status_put]
    exact T.answer (by rw [World.status, hi]; rfl)

/-- The sweep deletes what is gone already, and no row that an operation has locked. -/
theorem sweep (h : Inv lib key w) (hdead : liveOld w.row w.now = false)
    (hfree : w.rowLocked = false) : Inv lib key { w with row := none } where
  tagged := nofun
  sound c id op q hc := by
    refine (h.sound c id op q hc).keep fun hlock => ⟨hlock, fun hb => ?_⟩
    cases hfree.symm.trans hb
  tracked := by
    obtain ⟨points, final, T, hfinal⟩ := h.tracked
    exact ⟨points, final, T, hfinal.trans (visible_of_dead hdead)⟩

theorem tick (h : Inv lib key w) (n : Nat) : Inv lib key { w with now := w.now + n } where
  tagged := h.tagged
  sound c id op q hc := (h.sound c id op q hc).keep (.of_eq rfl rfl rfl)
  tracked := by
    obtain ⟨points, final, T, hfinal⟩ := h.tracked
    exact ⟨points, final, T.wait (Nat.le_add_right w.now n), expire_congr (Nat.le_add_right w.now n) hfinal⟩

/-- Only the rounds of `mutate` compare digests. -/
theorem next (hmd5 : ∀ i id op p, w.clients i = .busy id op p → op.mutation.isSome = true → Injective lib.md5) (h : Inv lib key w)
    {a : Act} (hf : fresh w a = true) (hn : w.next? lib a = some w') : Inv lib key w' := by
  cases a with
  | call i op =>
    simp only [World.next?] at hn
    split at hn
    · cases hn
      exact h.call i op
    · cases hn
  | step i =>
    simp only [World.next?] at hn
    split at hn
    · cases hn
    · next hi => exact h.advance (hmd5 _ _ _ _ hi) hi hf hn
  | answer i =>
    simp only [World.next?] at hn
    split at hn
    · next hi =>
      cases hn
      exact h.answer hi
    · cases hn
  | sweep =>
    simp only [World.next?] at hn
    split at hn
    · next hs =>
      cases hn
      simp only [Bool.and_eq_true, Bool.not_eq_true'] at hs
      exact h.sweep hs.1 hs.2
    · cases hn
  | tick n =>
    cases hn
    exact h.tick n

end Inv

/-! ## Every run -/

/-- In every run in which the clocks are fresh, the operations that were answered have one order
that agrees with real time, in which each returns what it does alone and which leaves the key as it
is. -/
theorem linearizable_of_fresh (lib : Lib) (hmd5 : Injective lib.md5) (now : Nat) (key : Option Item) (acts : List Act) (w : World)
    (hfresh : (machine lib).Allowed (fun w a => fresh w a = true) (.start lib now key) acts)
    (hrun : (machine lib).run (.start lib now key) acts = some w) : Linearizable key w := by
  have hinv : Inv lib key w :=
    Conc.Machine.invariant (fun _ _ _ h hf hn => h.next (fun _ _ _ _ _ _ => hmd5) hf hn) (Inv.start lib now key) hfresh hrun
  obtain ⟨points, final, T, hfinal⟩ := hinv.tracked
  exact ⟨points, final, T.toLinearizes, hfinal⟩

/-- Bytes as their own digest. -/
def plain : Lib := ⟨List.map Char.ofUInt8⟩

theorem plain_md5_injective : Injective plain.md5 := by
  refine map_injective_iff.2 fun a b hab => ?_
  have hval : (Char.ofUInt8 a).toUInt8 = (Char.ofUInt8 b).toUInt8 := by rw [hab]
  simpa [Char.ofUInt8, Char.toUInt8] using hval

/-- Two clients raise a counter with a TTL. The second reads it before the first has written, and
goes round. -/
def twoIncrements : List Act :=
  [Act.call 0 (.incrBy 1), .call 1 (.incrBy 2), .step 0, .step 0, .step 0, .step 1, .step 1, .step 1, .step 1, .tick 1] ++
    replicate 6 (Act.step 0) ++ [Act.answer 0, .tick 1] ++ replicate 11 (Act.step 1) ++ [Act.answer 1]

theorem twoIncrements_linearizable : ∃ w, (machine plain).run (.start plain 0 (some ⟨[53], some 100⟩)) twoIncrements = some w ∧
    w.history = [.call 0 (.incrBy 1) 0, .call 1 (.incrBy 2) 0, .answer 0 (some (.integer 6)) 1, .answer 1 (some (.integer 8)) 2] ∧
    Linearizable (some ⟨[53], some 100⟩) w := by
  have hhist : ((machine plain).runIf (fun w a => fresh w a = true) (.start plain 0 (some ⟨[53], some 100⟩)) twoIncrements).map
      World.history =
        some [.call 0 (.incrBy 1) 0, .call 1 (.incrBy 2) 0, .answer 0 (some (.integer 6)) 1, .answer 1 (some (.integer 8)) 2] := by
    decide +kernel
  obtain ⟨w, hw, hh⟩ := map_eq_some_iff.1 hhist
  obtain ⟨hfresh, hrun⟩ := Conc.Machine.runIf_spec hw
  exact ⟨w, hrun, hh, linearizable_of_fresh plain plain_md5_injective 0 _ _ w hfresh hrun⟩

/-! ## A transaction that began before the expiry -/

variable {ps : List (Conc.Point Op Reply)}

theorem replies_of_stable {P : Option Item → Prop} {b : Bool}
    (hP : ∀ time s val, P s → ∃ s', spec time s (.set val ⟨.xx, none, false⟩) = some (.wrote b, s') ∧ P s')
    (h : Conc.Replays spec s ps t) (hs : P s) (hops : ∀ p ∈ ps, ∃ val, p.op = .set val ⟨.xx, none, false⟩) :
    ∀ p ∈ ps, p.reply = .wrote b := by
  induction h with
  | nil => nofun
  | cons hp _ ih =>
    obtain ⟨⟨val, hop⟩, hops⟩ := forall_mem_cons.1 hops
    obtain ⟨s', hrun, hs'⟩ := hP _ _ val hs
    rw [hop, hrun] at hp
    obtain ⟨hreply, rfl⟩ := Prod.mk.inj (Option.some.inj hp)
    exact forall_mem_cons.2 ⟨hreply.symm, ih hs' hops⟩

/-- So of several `SET XX` on a key all write or none. -/
theorem wrote_agree (h : Conc.Replays spec s ps t) (hops : ∀ p ∈ ps, ∃ val, p.op = .set val ⟨.xx, none, false⟩) :
    (∀ p ∈ ps, p.reply = .wrote true) ∨ ∀ p ∈ ps, p.reply = .wrote false := by
  cases h with
  | nil => exact .inl nofun
  | @cons _ s' _ p ps hp hps =>
    have hrest : ∀ q ∈ ps, ∃ val, q.op = .set val ⟨.xx, none, false⟩ := fun q hq => hops q (mem_cons_of_mem _ hq)
    obtain ⟨val, hop⟩ := hops p (mem_cons_self ..)
    rw [hop, spec, Op.run] at hp
    cases hs : expire p.time s with
    | none =>
      rw [hs] at hp
      obtain ⟨hreply, rfl⟩ := Prod.mk.inj (Option.some.inj (hp.symm.trans (show _ = some (.wrote false, none) from rfl)))
      exact .inr (forall_mem_cons.2 ⟨hreply, replies_of_stable (P := (· = none)) (fun | _, _, _, rfl => ⟨none, rfl, rfl⟩) hps rfl hrest⟩)
    | some it =>
      rw [hs] at hp
      obtain ⟨hreply, rfl⟩ := Prod.mk.inj (Option.some.inj (hp.symm.trans (show _ = some (.wrote true, some ⟨val, none⟩) from rfl)))
      exact .inl (forall_mem_cons.2 ⟨hreply, replies_of_stable (P := fun s => ∃ v, s = some ⟨v, none⟩)
        (fun | _, _, val, ⟨_, rfl⟩ => ⟨_, rfl, val, rfl⟩) hps ⟨val, rfl⟩ hrest⟩)

/-- Client 0 begins a `SET XX`. The key expires, client 1's `SET XX` finds it gone and is answered
so. Then client 0 gets the lock and takes the expired row for live. -/
def staleClock : List Act :=
  [Act.call 0 (.set [2] ⟨.xx, none, false⟩), .step 0, .step 0, .tick 5, .call 1 (.set [3] ⟨.xx, none, false⟩)] ++
    replicate 4 (Act.step 1) ++ [Act.answer 1] ++ replicate 4 (Act.step 0) ++ [Act.answer 0]

theorem staleClock_not_linearizable : ¬∀ (lib : Lib), Injective lib.md5 → ∀ (now : Nat) (key : Option Item) (acts : List Act) (w : World),
      (machine lib).run (.start lib now key) acts = some w → Linearizable key w := by
  intro hall
  have hhist : ((machine plain).run (.start plain 0 (some ⟨[1], some 5⟩)) staleClock).map World.history =
      some [.call 0 (.set [2] ⟨.xx, none, false⟩) 0, .call 1 (.set [3] ⟨.xx, none, false⟩) 5, .answer 1 (some (.wrote false)) 5,
        .answer 0 (some (.wrote true)) 5] := by
    decide +kernel
  obtain ⟨w, hw, hh⟩ := map_eq_some_iff.1 hhist
  obtain ⟨ps, final, L, -⟩ := hall plain plain_md5_injective 0 _ _ w hw
  rw [hh] at L
  obtain ⟨p, hp, -, hreply, -⟩ := L.answered 0 (.wrote true) 5 (by simp)
  obtain ⟨q, hq, -, hreply', -⟩ := L.answered 1 (.wrote false) 5 (by simp)
  have hops : ∀ p ∈ ps, ∃ val, p.op = .set val ⟨.xx, none, false⟩ := by
    intro p hp
    obtain ⟨t, -, hcall⟩ := L.called p hp
    simp only [mem_cons, Event.call.injEq, not_mem_nil, or_false, reduceCtorEq] at hcall
    rcases hcall with ⟨-, hop, -⟩ | ⟨-, hop, -⟩
    · exact ⟨[2], hop⟩
    · exact ⟨[3], hop⟩
  rcases wrote_agree L.replays hops with hyes | hno
  · cases hreply'.symm.trans (hyes q hq)
  · cases hreply.symm.trans (hno p hp)

end Pgvs3.KeyOps
