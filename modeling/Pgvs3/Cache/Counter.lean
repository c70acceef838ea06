import Pgvs3.Cache.Visibility
/-!
# Counters

`cmdIncr` (`resp/resp.go:708-733`) makes an `int64` difference of its argument, and `IncrBy`
(`store/cache.go:775-792`) adds it to the stored number after a test for overflow. `DECRBY` negates
the argument, and the least `int64` is its own negative.
-/

namespace Pgvs3.Visibility

open Data (formatBytes parseBytes parseBytes_formatBytes)
open KeyOps (Lib minInt64 maxInt64)

inductive Incr where
  | incr
  | decr
  | incrBy
  | decrBy
deriving DecidableEq, Repr

/-- `arg` is what `strconv.ParseInt` makes of the argument. -/
def Incr.delta (arg : Option Int) : Incr → Option Int
  | incr => some 1
  | decr => some (-1)
  | incrBy => arg
  | decrBy => arg.map fun v => (-v).bmod (2 ^ 64)

/-- `resp.go:708-733`. -/
def cmdIncr (lib : Lib) (env : Env) (row : Option Row) (name : Incr)
    (arg : Option Int) : Reply × Option Row :=
  match name.delta arg with
  | none => (.error .notInteger, row)
  | some delta => exec lib env row (.incr delta)

abbrev Fits (n : Int) : Prop := minInt64 ≤ n ∧ n ≤ maxInt64

/-- The reply is the number, and its text is stored; or the number does not fit, and the row is as
it was. -/
def Counted (r : Row) (n : Int) (out : Reply × Option Row) : Prop :=
  (Fits n → out.1 = .int n ∧ out.2.map (·.body.value) = some (formatBytes n)) ∧
    (¬ Fits n → (∃ e, out.1 = .error e) ∧ out.2 = some r)

/-- The row is there for the database and holds the decimal text of `c`. -/
structure Holds (env : Env) (r : Row) (c : Int) : Prop where
  body : r.body = ⟨formatBytes c, true⟩
  fits : Fits c
  now : r.live env.now = true
  rounds : 0 < env.rounds

variable {lib : Lib} {env : Env} {r : Row} {c : Int}

@[simp] theorem keepTTL_allows (found : Bool) (etag : Text) :
    KeyOps.keepTTL.cond.precondition.allows found etag = true := rfl

theorem exec_incr (lib : Lib) (h : Holds env r c) (hclock : r.live env.clock = true)
    (delta : Int) : ∃ r' : Row, r'.body.value = formatBytes (c + delta) ∧ exec lib env (some r)
    (.incr delta) =
      if (0 < delta ∧ maxInt64 - delta < c) ∨
        (delta < 0 ∧ c < minInt64 - delta) then (.error .notInteger, some r)
      else (.int (c + delta), some r') := by
  obtain ⟨n, hn⟩ := Nat.exists_eq_succ_of_ne_zero h.rounds.ne'
  have hseen : seen env (some r) = some r := by simp [seen, metadata_some h.now, hclock]
  have hparse : parseBytes (formatBytes c) = some c :=
    parseBytes_formatBytes h.fits.1 (Int.lt_of_le_sub_one h.fits.2)
  obtain ⟨r', hw, hr'⟩ : ∃ r', writeCacheValue lib env.now (formatBytes (c + delta)) KeyOps.keepTTL
    (expects (some r)) (some r) = some r' ∧
      r'.body.value = formatBytes (c + delta) := by
    simp [writeCacheValue, expects, PublishArgs.check, Precondition.sqlAllows, liveOld, h.now,
      etagOld, PublishArgs.versionDiffers, PublishArgs.write]
  refine ⟨r', hr', ?_⟩
  split <;> simp [exec, mutateOp, KeyOps.Op.mutation, mutate, attempt, h.body, KeyOps.increment,
    KeyOps.cacheAdd, goRound, *, Except.map, leave, respond, Except.toOption]

theorem counted_incr (lib : Lib) (h : Holds env r c) (hclock : r.live env.clock = true)
    (delta : Int) :
    Counted r (c + delta) (exec lib env (some r) (.incr delta)) := by
  obtain ⟨r', hr', he⟩ := exec_incr lib h hclock delta
  have hc := h.fits
  unfold Fits at hc
  rw [he]
  unfold Counted Fits
  split
  · exact ⟨fun hf => by omega, fun _ => ⟨⟨_, rfl⟩, rfl⟩⟩
  · exact ⟨fun _ => ⟨rfl, congrArg some hr'⟩, fun hf => by omega⟩

/-- A row that has expired for the gateway alone is read as absent and refused as present, round
after round. -/
theorem exec_incr_waiting (h : Holds env r c) (hclock : r.live env.clock = false) (delta : Int) :
    exec lib env (some r) (.incr delta) = (.waiting, some r) := by
  have hseen : seen env (some r) = none := by simp [seen, metadata_some h.now, hclock]
  have hround : ∀ m : KeyOps.Mutation, m.opts = KeyOps.keepTTL →
      m.apply none = .ok (formatBytes delta) → attempt lib env m (some r) = none := by
    intro m ho hm
    simp [attempt, hseen, ho, hm, writeCacheValue, expects, PublishArgs.check,
      Precondition.sqlAllows, liveOld, h.now]
  simp only [exec, mutateOp, KeyOps.Op.mutation, mutate, if_true]
  rw [hround _ rfl rfl, goRound_none]
  rfl

theorem not_counted_waiting (r : Row) (n : Int) : ¬ Counted r n (.waiting, some r) := by
  rintro ⟨hfits, hnot⟩
  by_cases hn : Fits n
  · cases (hfits hn).1
  · obtain ⟨e, he⟩ := (hnot hn).1
    cases he

theorem counted_incr_iff (h : Holds env r c) (delta : Int) :
    Counted r (c + delta) (exec lib env (some r) (.incr delta)) ↔ r.live env.clock = true := by
  refine ⟨fun hcounted => ?_, fun hclock => counted_incr lib h hclock delta⟩
  by_contra hclock
  rw [exec_incr_waiting h (by simpa using hclock)] at hcounted
  exact not_counted_waiting r _ hcounted

/-- `INCRBY` is exact on every counter that is there for both clocks, `DECRBY` on the same unless it
is given the least `int64`. -/
theorem counter_exact_iff (lib : Lib) {v : Int} (h : Holds env r c) (hv : Fits v) :
    (Counted r (c + v) (cmdIncr lib env (some r) .incrBy (some v)) ↔ r.live env.clock = true) ∧
      (Counted r (c - v) (cmdIncr lib env (some r) .decrBy (some v)) ↔ r.live env.clock = true ∧
        v ≠ minInt64) := by
  have hmin : minInt64 = -9223372036854775808 := rfl
  have hmax : maxInt64 = 9223372036854775807 := rfl
  have hdecr : cmdIncr lib env (some r) .decrBy (some v) = exec lib env (some r)
    (.incr ((-v).bmod (2 ^ 64))) := rfl
  refine ⟨counted_incr_iff h v, ?_⟩
  rw [hdecr]
  by_cases hne : v = minInt64
  · -- the least number is its own negative: the sum fits exactly where the difference does not
    subst hne
    have hneg : (-minInt64).bmod (2 ^ 64) = minInt64 := by decide
    rw [hneg]
    refine iff_of_false (fun hcounted => ?_) fun hboth => hboth.2 rfl
    cases hclock : r.live env.clock with
    | false =>
      rw [exec_incr_waiting h hclock] at hcounted
      exact not_counted_waiting r _ hcounted
    | true =>
      obtain ⟨hfits, hnot⟩ := hcounted
      obtain ⟨hfits', hnot'⟩ := counted_incr lib h hclock minInt64
      have hc := h.fits
      by_cases hc0 : c < 0
      · obtain ⟨⟨e, herr⟩, -⟩ := hnot' (by unfold Fits; omega)
        rw [(hfits (by unfold Fits at hc ⊢; omega)).1] at herr
        cases herr
      · obtain ⟨⟨e, herr⟩, -⟩ := hnot (by unfold Fits; omega)
        rw [(hfits' (by unfold Fits at hc ⊢; omega)).1] at herr
        cases herr
  · unfold Fits at hv
    rw [Int.bmod_eq_of_le (by omega) (by omega), Int.sub_eq_add_neg, counted_incr_iff h]
    exact ⟨fun hclock => ⟨hclock, hne⟩, And.left⟩

def zeroRow : Row := ⟨[], ⟨[48], true⟩, none, none, 0⟩

theorem holds_zero : Holds ⟨0, 0, 0, 1⟩ zeroRow 0 := ⟨by decide, by decide, rfl, by decide⟩

theorem five_counted : Counted zeroRow (0 - 5)
    (cmdIncr ⟨fun _ => []⟩ ⟨0, 0, 0, 1⟩ (some zeroRow) .decrBy (some 5)) :=
  (counter_exact_iff _ holds_zero (by decide)).2.2 ⟨rfl, by decide⟩

/-- `DECRBY k -9223372036854775808` makes `-9223372036854775808` of zero. -/
theorem least_decrement_wraps : ¬ ∀ (lib : Lib) (env : Env) (r : Row) (c v : Int), Holds env r c →
    r.live env.clock = true → Fits v →
    Counted r (c - v) (cmdIncr lib env (some r) .decrBy (some v)) := by
  intro h
  obtain ⟨-, hnot⟩ := h ⟨fun _ => []⟩ _ _ _ (-9223372036854775808) holds_zero rfl (by decide)
  obtain ⟨⟨e, herr⟩, -⟩ := hnot (by decide)
  obtain ⟨r', -, he⟩ := exec_incr ⟨fun _ => []⟩ holds_zero rfl (-9223372036854775808)
  cases herr.symm.trans (congrArg Prod.fst he)

end Pgvs3.Visibility
