import Pgvs3.Cache.Counter
import Pgvs3.Cache.KeyLinear
/-!
# Keys that do not expire

The operations of `store/cache.go:493-538`, `666-792`, as `Cache.KeyOps` has them. As long as none
gives the key an expiry, no clock decides anything, and the operations are linearizable however
their transactions overlap. So counters lose no increment, and of many `SET NX` one writes.
-/

namespace Pgvs3.KeyOps

open Conc (Point Replays Linearizes)
open Data (formatBytes parseBytes parseBytes_formatBytes)
open List Option Function

/-- The operation gives the key no expiry of its own. -/
def Op.timeless : Op → Bool
  | .set _ opts | .getSet _ opts => opts.expiresAt.isNone
  | _ => true

def Eternal (row : Option Row) : Prop := ∀ r ∈ row, r.expiresAt = none

def Place.Eternal : Place → Prop
  | .fetched _ row | .drafted _ row _ => KeyOps.Eternal row
  | .ready wr | .begun (.publish wr) _ | .locked (.publish wr) _ | .checked wr _ => wr.args.expiresAt = none
  | _ => True

/-- All operations are timeless ones of `P`. -/
structure Timeless (P : Op → Prop) (w : World) : Prop where
  only : ∀ op, P op → op.timeless = true
  row : Eternal w.row
  clients : ∀ i id op p, w.clients i = .busy id op p → P op ∧ p.Eternal
  calls : ∀ id op t, .call id op t ∈ w.history → P op

variable {lib : Lib} {P : Op → Prop} {w w' : World} {row : Option Row} {now i id : Nat} {op : Op} {p : Place} {key : Option Item}

theorem eternal_none : Eternal none := by
  simp [Eternal]

theorem Eternal.liveOld (h : Eternal row) : liveOld row now = row.isSome := by
  cases row with
  | none => rfl
  | some r => simp [Pgvs3.liveOld, ObjectRow.live, h r rfl]

theorem Eternal.filter (h : Eternal row) (q : Row → Bool) : Eternal (row.filter q) :=
  fun r hr => h r (filter_eq_some_iff.1 hr).1

theorem Eternal.write {args : PublishArgs Unit Bytes} {r : Row} (h : Eternal row) (ha : args.expiresAt = none)
    (hw : args.write row now = some r) : r.expiresAt = none := by
  simp only [PublishArgs.write, Option.ite_none_left_eq_some, Option.some.injEq] at hw
  obtain ⟨-, rfl⟩ := hw
  cases row with
  | none => exact ha
  | some old => simp [PublishArgs.newExpiry, ha, h old rfl]

theorem judge_timeless {m : Mutation} {args : PublishArgs Unit Bytes} {r : Reply} (hop : op.timeless = true) (hm : op.mutation = some m)
    (hj : m.judge lib row = .write args r) : args.expiresAt = none := by
  have hopts : m.opts.expiresAt = none := by
    cases op <;> cases hm <;> first | rfl | simpa [Op.timeless] using hop
  simp only [Mutation.judge] at hj
  split_ifs at hj
  split at hj <;> cases hj
  exact hopts

namespace Timeless

theorem fresh (h : Timeless P w) (a : Act) : fresh w a = true := by
  unfold KeyOps.fresh
  split
  · next i =>
    split
    · simp [h.row.liveOld]
    · next hi => simp [Eternal.liveOld (h.clients _ _ _ _ hi).2]
    · simp [h.row.liveOld]
    · simp [h.row.liveOld]
    · rfl
  · rfl

theorem put (h : Timeless P w) (hrow : Eternal w'.row) (hc : w'.clients = update w.clients i (.busy id op p))
    (hh : w'.history = w.history) (hop : P op) (hp : p.Eternal) : Timeless P w' := by
  refine ⟨h.only, hrow, fun j id' op' p' hj => ?_, hh ▸ h.calls⟩
  rw [hc] at hj
  by_cases hji : j = i
  · subst hji
    cases (update_self ..).symm.trans hj
    exact ⟨hop, hp⟩
  · rw [update_of_ne hji] at hj
    exact h.clients j id' op' p' hj

theorem advance (h : Timeless P w) (hi : w.clients i = .busy id op p) (hn : w.advance lib i id op p = some w') : Timeless P w' := by
  obtain ⟨hop, hp⟩ := h.clients i id op p hi
  cases p with
  | called =>
    cases hn
    refine h.put h.row rfl rfl hop ?_
    cases op with
    | set val opts => exact isNone_iff_eq_none.1 (h.only _ hop)
    | getDel | del => trivial
    | getSet | append | setRange | incrBy =>
      dsimp only
      split <;> trivial
  | looking a =>
    cases hn
    exact h.put h.row rfl rfl hop trivial
  | reading a began =>
    cases hn
    exact h.put h.row rfl rfl hop (h.row.filter _)
  | fetched a row =>
    simp only [World.advance] at hn
    split at hn
    · cases hn
    · next m hm =>
      cases hn
      refine h.put h.row rfl rfl hop ?_
      split
      · trivial
      · trivial
      · next hj => exact judge_timeless (h.only _ hop) hm hj
  | ready wr =>
    cases hn
    exact h.put h.row rfl rfl hop hp
  | begun tx began =>
    simp only [World.advance, Option.ite_none_right_eq_some, Option.some.injEq] at hn
    obtain ⟨-, rfl⟩ := hn
    cases tx <;> exact h.put h.row rfl rfl hop hp
  | locked tx began =>
    cases tx with
    | publish wr =>
      simp only [World.advance] at hn
      split at hn
      · split at hn
        · cases hn
          exact h.put h.row rfl rfl hop hp
        · cases hn
          refine h.put h.row rfl rfl hop ?_
          unfold World.refused
          split
          · split <;> trivial
          · trivial
      · cases hn
        exact h.put h.row rfl rfl hop hp
    | getDel =>
      simp only [World.advance] at hn
      split at hn <;> cases hn <;> exact h.put h.row rfl rfl hop trivial
    | del =>
      cases hn
      exact h.put h.row rfl rfl hop eternal_none
  | checked wr began =>
    simp only [World.advance] at hn
    split at hn
    · cases hn
    · next r hr =>
      cases hn
      refine h.put h.row rfl rfl hop fun x hx => ?_
      cases hx
      exact h.row.write hp hr
  | deleted r =>
    cases hn
    exact h.put h.row rfl rfl hop eternal_none
  | drafted judged draft reply =>
    cases hn
    exact h.put hp rfl rfl hop trivial
  | done result => cases hn

theorem next (h : Timeless P w) {a : Act} (ha : ∀ i op, a = .call i op → P op) (hn : w.next? lib a = some w') : Timeless P w' := by
  cases a with
  | call i op =>
    simp only [World.next?] at hn
    split at hn <;> cases hn
    have hop := ha i op rfl
    refine Timeless.put (w := { w with history := w.history ++ [.call w.next op w.now] }) ⟨h.only, h.row, h.clients, ?_⟩ h.row rfl rfl hop
      trivial
    simp only [mem_append, mem_singleton, Conc.Event.call.injEq]
    rintro id op' t (hm | ⟨-, rfl, -⟩)
    · exact h.calls id op' t hm
    · exact hop
  | step i =>
    simp only [World.next?] at hn
    split at hn
    · cases hn
    · next hi => exact h.advance hi hn
  | answer i =>
    simp only [World.next?] at hn
    split at hn <;> cases hn
    refine ⟨h.only, h.row, fun j id op p hj => h.clients j id op p ?_, fun id op t hm => h.calls id op t (by simpa [World.put] using hm)⟩
    by_cases hji : j = i <;> simp_all [World.put]
  | sweep =>
    simp only [World.next?, Option.ite_none_right_eq_some, Option.some.injEq] at hn
    obtain ⟨-, rfl⟩ := hn
    exact ⟨h.only, eternal_none, h.clients, h.calls⟩
  | tick n =>
    cases hn
    exact ⟨h.only, h.row, h.clients, h.calls⟩

end Timeless

variable {acts : List Act}

theorem linearizes_of_timeless (hmd5 : ∀ op, P op → op.mutation.isSome = true → Injective lib.md5)
    (hP : ∀ op, P op → op.timeless = true) (hkey : ∀ it ∈ key, it.expiresAt = none)
    (hacts : ∀ i op, Act.call i op ∈ acts → P op) (hrun : (machine lib).run (.start lib now key) acts = some w) :
    ∃ points final, Linearizes spec key final w.history points ∧ expire w.now final = visible w.now w.row ∧
      ∀ p ∈ points, P p.op := by
  have hstart : Timeless P (.start lib now key) := by
    refine ⟨hP, ?_, fun _ _ _ _ hi => (nomatch hi), nofun⟩
    cases key with
    | none => exact eternal_none
    | some it =>
      rintro r ⟨⟩
      exact hkey it rfl
  have hstep : ∀ v a v', Inv lib key v ∧ Timeless P v → True ∧ (∀ i op, a = .call i op → P op) → World.next? lib v a = some v' →
      Inv lib key v' ∧ Timeless P v' := fun v a v' h ha hn =>
    ⟨h.1.next (fun i id op p hi => hmd5 op (h.2.clients i id op p hi).1) (h.2.fresh a) hn, h.2.next ha.2 hn⟩
  have hinv : Inv lib key w ∧ Timeless P w := Conc.Machine.invariant (M := machine lib) hstep ⟨Inv.start lib now key, hstart⟩
    ((Conc.Machine.allowed_true _ acts).and fun a ha i op he => hacts i op (he ▸ ha)) hrun
  obtain ⟨points, final, T, hfinal⟩ := hinv.1.tracked
  refine ⟨points, final, T.toLinearizes, hfinal, fun p hp => ?_⟩
  obtain ⟨t, -, hcall⟩ := T.called p hp
  exact hinv.2.calls _ _ t hcall

/-- However their transactions overlap and whatever the clock does, operations that set no expiry on
a key without one have an order that agrees with real time, in which each returns what it does alone
and which leaves the key as it is. -/
theorem linearizable_of_timeless (lib : Lib) (hmd5 : Injective lib.md5) (now : Nat) (key : Option Item) (acts : List Act) (w : World)
    (hkey : ∀ it ∈ key, it.expiresAt = none) (hacts : ∀ i op, Act.call i op ∈ acts → op.timeless = true)
    (hrun : (machine lib).run (.start lib now key) acts = some w) : Linearizable key w := by
  obtain ⟨points, final, L, hfinal, -⟩ := linearizes_of_timeless (fun _ _ _ => hmd5) (fun _ h => h) hkey hacts hrun
  exact ⟨points, final, L, hfinal⟩

theorem twoIncrements_calls (i : Nat) (op : Op) (h : Act.call i op ∈ twoIncrements) : ∃ d, op = .incrBy d := by
  simp only [twoIncrements, mem_append, mem_cons, mem_replicate, Act.call.injEq, reduceCtorEq, or_false, and_false, not_mem_nil] at h
  rcases h with ⟨-, rfl⟩ | ⟨-, rfl⟩ <;> exact ⟨_, rfl⟩

theorem counter_linearizable : ∃ w, (machine plain).run (.start plain 0 (some ⟨[53], none⟩)) twoIncrements = some w ∧
    Linearizable (some ⟨[53], none⟩) w := by
  have hsome : ((machine plain).run (.start plain 0 (some ⟨[53], none⟩)) twoIncrements).isSome = true := by decide +kernel
  obtain ⟨w, hw⟩ := isSome_iff_exists.1 hsome
  exact ⟨w, hw, linearizable_of_timeless plain plain_md5_injective 0 _ _ w (by simp)
    (fun i op h => by obtain ⟨d, rfl⟩ := twoIncrements_calls i op h; rfl) hw⟩

/-! ## Counters -/

def Op.delta : Op → Int
  | .incrBy d => d
  | _ => 0

def total (ps : List (Point Op Reply)) : Int := (ps.map (·.op.delta)).sum

/-- Each reply is the number that the increments so far have made of `c`. -/
def Running : Int → List (Point Op Reply) → Prop
  | _, [] => True
  | c, p :: ps => p.reply = .integer (c + p.op.delta) ∧ Running (c + p.op.delta) ps

variable {ps : List (Point Op Reply)} {s t : Option Item} {c : Int}

theorem spec_incrBy {d : Int} {r : Reply} (hc : minInt64 ≤ c ∧ c ≤ maxInt64)
    (h : spec now (some ⟨formatBytes c, none⟩) (.incrBy d) = some (r, t)) :
    r = .integer (c + d) ∧ t = some ⟨formatBytes (c + d), none⟩ ∧ minInt64 ≤ c + d ∧ c + d ≤ maxInt64 := by
  have hparse : parseBytes (formatBytes c) = some c := parseBytes_formatBytes hc.1 (Int.lt_of_le_sub_one hc.2)
  have hexp : expire now (some ⟨formatBytes c, none⟩) = some ⟨formatBytes c, none⟩ := rfl
  simp only [spec, Op.run, hexp, Option.map_some, increment, cacheAdd, hparse] at h
  split_ifs at h with hover
  · cases h
  · obtain ⟨rfl, rfl⟩ := Prod.mk.inj (Option.some.inj h)
    exact ⟨rfl, rfl, by omega⟩

theorem Running.of_replays (h : Replays spec s ps t) (hops : ∀ p ∈ ps, ∃ d, p.op = .incrBy d) (hc : minInt64 ≤ c ∧ c ≤ maxInt64)
    (hs : s = some ⟨formatBytes c, none⟩) : Running c ps ∧ t = some ⟨formatBytes (c + total ps), none⟩ := by
  induction h generalizing c with
  | nil s => exact ⟨trivial, by simpa [total] using hs⟩
  | @cons s s' t p ps hp hps ih =>
    obtain ⟨⟨d, hd⟩, hops⟩ := forall_mem_cons.1 hops
    rw [hs, hd] at hp
    obtain ⟨hr, hs', hfits⟩ := spec_incrBy hc hp
    obtain ⟨hrun, ht⟩ := ih hops hfits hs'
    simp only [Running, total, hd, Op.delta, map_cons, sum_cons, ← Int.add_assoc] at ht ⊢
    exact ⟨⟨hr, hrun⟩, ht⟩

theorem body_of_visible {v : Bytes} (h : expire now (some ⟨v, none⟩) = visible now row) : row.map (·.body) = some v := by
  have hv : visible now row = some ⟨v, none⟩ := h.symm
  obtain ⟨r, rfl, hr⟩ := map_eq_some_iff.1 (filter_eq_some_iff.1 hv).1
  exact congrArg (some ·.value) hr

/-- **No increment is lost.** Any clients raise a counter, however their transactions overlap. The
increments that have taken effect, among them all that were acknowledged and none that failed, have
an order that agrees with real time; each has returned the exact sum up to it, and the counter holds
the sum of all. -/
theorem increments_exact (lib : Lib) (hmd5 : Injective lib.md5) (now : Nat) (c : Int)
    (hc : minInt64 ≤ c ∧ c ≤ maxInt64) (acts : List Act) (hacts : ∀ i op, Act.call i op ∈ acts → ∃ d, op = .incrBy d) (w : World)
    (hrun : (machine lib).run (.start lib now (some ⟨formatBytes c, none⟩)) acts = some w) :
    ∃ points final, Linearizes spec (some ⟨formatBytes c, none⟩) final w.history points ∧ Running c points ∧
      w.row.map (·.body) = some (formatBytes (c + total points)) := by
  obtain ⟨points, final, L, hfinal, hops⟩ := linearizes_of_timeless (fun _ _ _ => hmd5) (by rintro _ ⟨d, rfl⟩; rfl) (by simp) hacts hrun
  obtain ⟨hrunning, rfl⟩ := Running.of_replays L.replays hops hc rfl
  exact ⟨points, _, L, hrunning, body_of_visible hfinal⟩

theorem increments_of_two : ∃ w, (machine plain).run (.start plain 0 (some ⟨formatBytes 5, none⟩)) twoIncrements = some w ∧
    ∃ points, Running 5 points ∧ w.row.map (·.body) = some (formatBytes (5 + total points)) := by
  have hsome : ((machine plain).run (.start plain 0 (some ⟨formatBytes 5, none⟩)) twoIncrements).isSome = true := by decide +kernel
  obtain ⟨w, hw⟩ := isSome_iff_exists.1 hsome
  obtain ⟨points, -, -, hr, hb⟩ := increments_exact plain plain_md5_injective 0 5 (by decide) _ twoIncrements_calls w hw
  exact ⟨w, hw, points, hr, hb⟩

/-! ## `SET NX` -/

theorem refused_of_replays {v : Bytes} (h : Replays spec s ps t) (hs : s = some ⟨v, none⟩)
    (hops : ∀ p ∈ ps, ∃ val, p.op = .set val ⟨.nx, none, false⟩) : t = some ⟨v, none⟩ ∧ ∀ p ∈ ps, p.reply = .wrote false := by
  induction h with
  | nil => exact ⟨hs, nofun⟩
  | cons hp _ ih =>
    obtain ⟨⟨val, hop⟩, hops⟩ := forall_mem_cons.1 hops
    rw [hop, hs] at hp
    have hfalse : ∀ time, spec time (some ⟨v, none⟩) (.set val ⟨.nx, none, false⟩) = some (.wrote false, some ⟨v, none⟩) :=
      fun _ => rfl
    obtain ⟨hreply, hs'⟩ := Prod.mk.inj (Option.some.inj ((hfalse _).symm.trans hp))
    obtain ⟨ht, hall⟩ := ih hs'.symm hops
    exact ⟨ht, forall_mem_cons.2 ⟨hreply.symm, hall⟩⟩

/-- **One `SET NX` writes.** Of any clients that set an absent key with `NX`, however their
transactions overlap, one wins: every call that was answered has written exactly if it is that one,
and the key holds its value. -/
theorem setNX_one_wins (lib : Lib) (now : Nat) (acts : List Act)
    (hacts : ∀ i op, Act.call i op ∈ acts → ∃ val, op = .set val ⟨.nx, none, false⟩) (w : World)
    (hrun : (machine lib).run (.start lib now none) acts = some w) (hans : ∃ id r t, .answer id (some r) t ∈ w.history) :
    ∃ winner val t, .call winner (.set val ⟨.nx, none, false⟩) t ∈ w.history ∧ w.row.map (·.body) = some val ∧
      ∀ id r t, .answer id (some r) t ∈ w.history → r = .wrote (id = winner) := by
  obtain ⟨points, final, L, hfinal, hops⟩ :=
    linearizes_of_timeless (by rintro _ ⟨d, rfl⟩ h; cases h) (by rintro _ ⟨d, rfl⟩; rfl)
    (by simp) hacts hrun
  obtain ⟨id₀, r₀, t₀, h₀⟩ := hans
  obtain ⟨q, hq, -⟩ := L.answered id₀ r₀ t₀ h₀
  cases points with
  | nil => cases hq
  | cons p ps =>
    obtain ⟨⟨val, hop⟩, hops⟩ := forall_mem_cons.1 hops
    obtain ⟨hnew, -⟩ := nodup_cons.1 L.nodup
    obtain ⟨t, -, hcall⟩ := L.called p mem_cons_self
    cases L.replays with
    | cons hp hps =>
      rw [hop] at hp hcall
      have htrue : spec p.time none (.set val ⟨.nx, none, false⟩) = some (.wrote true, some ⟨val, none⟩) := rfl
      obtain ⟨hreply, hs'⟩ := Prod.mk.inj (Option.some.inj (htrue.symm.trans hp))
      obtain ⟨rfl, hrest⟩ := refused_of_replays hps hs'.symm hops
      refine ⟨p.id, val, t, hcall, body_of_visible hfinal, fun id r t h => ?_⟩
      obtain ⟨q, hq, rfl, rfl, -⟩ := L.answered id r t h
      rcases mem_cons.1 hq with rfl | hq
      · simp [← hreply]
      · have hne : q.id ≠ p.id := fun he => hnew (he ▸ Conc.mem_ids hq)
        simp [hrest q hq, hne]

/-- Two clients set an absent key; the second looks before the first has committed. -/
def twoSets : List Act :=
  [Act.call 0 (.set [1] ⟨.nx, none, false⟩), .call 1 (.set [2] ⟨.nx, none, false⟩), .step 0, .step 1, .step 1] ++
    replicate 5 (Act.step 0) ++ [Act.answer 0] ++ replicate 2 (Act.step 1) ++ [Act.answer 1]

theorem second_set_refused : ∃ w, (machine plain).run (.start plain 0 none) twoSets = some w ∧
    ∃ winner val t, .call winner (.set val ⟨.nx, none, false⟩) t ∈ w.history ∧ w.row.map (·.body) = some val := by
  have hhist : ((machine plain).run (.start plain 0 none) twoSets).map World.history =
      some [.call 0 (.set [1] ⟨.nx, none, false⟩) 0, .call 1 (.set [2] ⟨.nx, none, false⟩) 0, .answer 0 (some (.wrote true)) 0,
        .answer 1 (some (.wrote false)) 0] := by
    decide +kernel
  obtain ⟨w, hw, hh⟩ := map_eq_some_iff.1 hhist
  have hacts : ∀ i op, Act.call i op ∈ twoSets → ∃ val, op = .set val ⟨.nx, none, false⟩ := by
    simp only [twoSets, mem_append, mem_cons, mem_replicate, Act.call.injEq, reduceCtorEq, or_false, and_false, not_mem_nil]
    rintro i op (⟨-, rfl⟩ | ⟨-, rfl⟩) <;> exact ⟨_, rfl⟩
  obtain ⟨winner, val, t, hcall, hrow, -⟩ := setNX_one_wins plain 0 _ hacts w hw ⟨0, .wrote true, 0, by simp [hh]⟩
  exact ⟨w, hw, winner, val, t, hcall, hrow⟩

end Pgvs3.KeyOps
