import Pgvs3.Cache.KeyOps
/-!
# Which commands see a cache key

A row whose origin version begins with `deleted:` is there for the commands that read its metadata
or write over it and not for the others, and `Live` asks the gateway's clock, not the database's:
`commands_agree_iff`.

A command runs at one time of each clock and there are no other clients. Bodies in files are read as
they were written.
-/

namespace Pgvs3.Visibility

open KeyOps (Lib Err SetOptions Mutation)

structure Stored where
  value : Bytes
  inline : Bool
deriving DecidableEq, Repr

abbrev Row := ObjectRow Text Stored

def deletedOriginPrefix : Text := "deleted:".toList

def deleted (r : Row) : Bool := r.originETag.any (deletedOriginPrefix.isPrefixOf ·)

inductive ExpireOption where
  | nx
  | xx
  | gt
  | lt
  | other
deriving DecidableEq, Repr

inductive Command where
  | get
  | mget
  | exists_
  | ttl
  | pttl
  | expire (at_ : Nat) (opts : List ExpireOption)
  | persist
  | getDel
  | dbSize
  | strLen
  | getRange (first last : Int)
  | type
  | set (val : Bytes) (opts : SetOptions) (returnOld : Bool)
  | getSet (val : Bytes)
  | append (suffix : Bytes)
  | incr (delta : Int)
deriving DecidableEq, Repr

inductive Reply where
  | bulk (value : Option Bytes)
  | array (values : List (Option Bytes))
  | int (n : Int)
  | status (text : String)
  | error (e : Err)
  /-- `IncrBy` goes round without a bound: there is no reply yet. -/
  | waiting
deriving DecidableEq, Repr

structure Env where
  /-- The database's clock, in microseconds. -/
  now : Nat
  /-- The gateway's clock. -/
  clock : Nat
  /-- How many other keys the cache has. -/
  others : Nat
  /-- How many rounds of an `IncrBy` are looked at. -/
  rounds : Nat

/-! ## Looking up the row -/

def visible (now : Nat) (row : Option Row) : Option Row := row.filter fun r => r.live now && !deleted r

/-- `store/object.go:401-404`. -/
def metadata (now : Nat) (row : Option Row) : Option Row := row.filter (·.live now)

/-- A value in a file is looked up a second time, by its metadata (`store/cache.go:147-179`). -/
def fetch (now : Nat) (row : Option Row) : Option Bytes :=
  match visible now row with
  | none => none
  | some r => if r.body.inline then some r.body.value else (metadata now row).map (·.body.value)

/-! ## Writing it -/

def ExpireOption.allows (at_ : Nat) (r : Row) : ExpireOption → Bool
  | .nx => r.expiresAt.isNone
  | .xx => r.expiresAt.isSome
  | .gt => r.expiresAt.any (· < at_)
  | .lt => r.expiresAt.all (at_ < ·)
  | .other => true

/-- The reply and the row that is written, if one is (`store/cache.go:555-579`). -/
def update (now : Nat) (row : Option Row) (cond : Row → Bool) (expiresAt : Option Nat) : Reply × Option Row :=
  match (visible now row).filter cond with
  | none => (.int 0, none)
  | some r => (.int 1, some { r with expiresAt := expiresAt })

/-- The row is deleted whether it has expired or not. -/
def getDel (clock : Nat) (row : Option Row) : Reply × Option Row :=
  match row.filter (!deleted ·) with
  | none => (.bulk none, row)
  | some r => (.bulk (if r.live clock then some r.body.value else none), none)

/-- `none`: the precondition does not hold (`store/cache.go:181-216`). -/
def writeCacheValue (lib : Lib) (now : Nat) (val : Bytes) (opts : SetOptions) (cond : Precondition) (row : Option Row) : Option Row :=
  let args : PublishArgs Text Stored :=
    { etag := lib.md5 val, body := ⟨val, val.length ≤ Cache.inlineMax⟩, cond := cond, expiresAt := opts.expiresAt
      keepTTL := opts.keepTTL, originETag := some [], expected := none }
  if args.check row now = .ok then args.write row now else none

def respond : KeyOps.Reply → Reply
  | .wrote true => .status "OK"
  | .wrote false => .bulk none
  | .previous v _ => .bulk v
  | .size n => .int n
  | .integer n => .int n
  | .value v => .bulk v
  | .deleted n => .int n

/-- What the write expects of the row that was read. -/
def expects : Option Row → Precondition
  | some r => .ifMatch r.etag
  | none => .ifAbsent

/-- `cacheValueWithMeta`. -/
def seen (env : Env) (row : Option Row) : Option Row := (metadata env.now row).filter (·.live env.clock)

/-- A round of `mutate`, with the row that it writes; `none`: the write was refused. -/
def attempt (lib : Lib) (env : Env) (m : Mutation) (row : Option Row) : Option (Reply × Option Row) :=
  let seen := seen env row
  let value := seen.map (·.body.value)
  if m.inlineOnly && seen.any (!·.body.inline) then some (.error .notInteger, none)
  else if !m.opts.cond.precondition.allows seen.isSome (etagOld seen) then some (respond (m.reply value none), none)
  else match m.apply value with
    | .error e => some (.error e, none)
    | .ok next => (writeCacheValue lib env.now next m.opts (expects seen) row).map fun r => (respond (m.reply value (some next)), some r)

/-- Rounds on a row that nobody else changes. -/
def goRound (round : Option (Reply × Option Row)) (last : Reply) : Nat → Reply × Option Row
  | 0 => (last, none)
  | n + 1 =>
    match round with
    | some out => out
    | none => goRound round last n

def mutate (lib : Lib) (env : Env) (m : Mutation) (row : Option Row) : Reply × Option Row :=
  if m.retries = 0 then goRound (attempt lib env m row) .waiting env.rounds
  else goRound (attempt lib env m row) (.error .contention) m.retries

/-! ## The commands -/

/-- `-2`: no key, `-1`: no expiry (`store/cache.go:581-603`). -/
def ttl (now : Nat) (row : Option Row) (show_ : Nat → Nat) : Reply :=
  match visible now row with
  | none => .int (-2)
  | some r =>
    match r.expiresAt with
    | none => .int (-1)
    | some e => .int (max (show_ (e - now)) 1)

/-- The bytes from `first` to `last`, both from the end where they are negative. -/
def getRange (first last : Int) (value : Bytes) : Bytes :=
  let size : Int := value.length
  let first := if first < 0 then max (size + first) 0 else first
  let last := if last < 0 then size + last else last
  if last < first ∨ size ≤ first ∨ last < 0 then []
  else (value.drop first.toNat).take ((min last (size - 1)).toNat + 1 - first.toNat)

def leave (row : Option Row) (out : Reply × Option Row) : Reply × Option Row := (out.1, out.2.or row)

/-- The operation's `cacheMutation`. -/
def mutateOp (lib : Lib) (env : Env) (op : KeyOps.Op) (row : Option Row) : Reply × Option Row :=
  match op.mutation with
  | some m => leave row (mutate lib env m row)
  | none => (.waiting, row)

def exec (lib : Lib) (env : Env) (row : Option Row) : Command → Reply × Option Row
  | .get => (.bulk (fetch env.now row), row)
  | .mget => (.array [fetch env.now row], row)
  | .exists_ => (.int (visible env.now row).toList.length, row)
  | .ttl => (ttl env.now row fun d => (d + 500000) / 1000000, row)
  | .pttl => (ttl env.now row fun d => d / 1000, row)
  | .expire at_ opts => leave row (update env.now row (fun r => opts.all (·.allows at_ r)) (some at_))
  | .persist => leave row (update env.now row (·.expiresAt.isSome) none)
  | .getDel => getDel env.clock row
  | .dbSize => (.int (env.others + (visible env.now row).toList.length), row)
  | .strLen => (.int (((metadata env.now row).map (·.body.value.length)).getD 0), row)
  | .getRange first last => (.bulk (some (((metadata env.now row).map (getRange first last ·.body.value)).getD [])), row)
  | .type => (.status (if (metadata env.now row).isSome then "string" else "none"), row)
  | .set val opts false =>
    let wrote := writeCacheValue lib env.now val opts opts.cond.precondition row
    leave row (respond (.wrote wrote.isSome), wrote)
  | .set val opts true => mutateOp lib env (.getSet val opts) row
  | .getSet val => mutateOp lib env (.getSet val ⟨.always, none, false⟩) row
  | .append suffix => mutateOp lib env (.append suffix) row
  | .incr delta => mutateOp lib env (.incrBy delta) row

/-! ## Agreeing -/

/-- The same reply, and the same row afterwards or both as they were. -/
def Alike (row row' : Option Row) (out out' : Reply × Option Row) : Prop :=
  out.1 = out'.1 ∧ (out.2 = out'.2 ∨ (out.2 = row ∧ out'.2 = row'))

theorem Alike.refl (row : Option Row) (out : Reply × Option Row) : Alike row row out out := ⟨rfl, .inl rfl⟩

/-- The command does what it does without a row. -/
def AsAbsent (lib : Lib) (env : Env) (r : Row) (c : Command) : Prop :=
  Alike (some r) none (exec lib env (some r) c) (exec lib env none c)

def present (env : Env) (r : Row) : Row :=
  { r with
    expiresAt := if r.live env.now && r.live env.clock then r.expiresAt else none
    originETag := if deleted r then none else r.originETag }

/-- The command does what it does with that row. -/
def AsExisting (lib : Lib) (env : Env) (r : Row) (c : Command) : Prop :=
  Alike (some r) (some (present env r)) (exec lib env (some r) c) (exec lib env (some (present env r)) c)

def Agree (lib : Lib) (env : Env) (r : Row) : Prop := (∀ c, AsAbsent lib env r c) ∨ ∀ c, AsExisting lib env r c

variable {lib : Lib} {env : Env} {r : Row}

theorem visible_some (hl : r.live env.now = true) (hd : deleted r = false) : visible env.now (some r) = some r := by
  simp [visible, hl, hd]

theorem metadata_some (hl : r.live env.now = true) : metadata env.now (some r) = some r := by simp [metadata, hl]

theorem fetch_some (hl : r.live env.now = true) (hd : deleted r = false) : fetch env.now (some r) = some r.body.value := by
  simp [fetch, visible_some hl hd, metadata_some hl]

theorem visible_deleted (hd : deleted r = true) : visible env.now (some r) = none := by simp [visible, hd]

theorem visible_expired (hl : r.live env.now = false) : visible env.now (some r) = none := by simp [visible, hl]

theorem metadata_expired (hl : r.live env.now = false) : metadata env.now (some r) = none := by simp [metadata, hl]

theorem present_live (env : Env) (r : Row) : (present env r).live env.now = true ∧ (present env r).live env.clock = true := by
  by_cases h : r.live env.now = true ∧ r.live env.clock = true
  · have he : (present env r).expiresAt = r.expiresAt := by simp [present, h]
    simpa only [ObjectRow.live, he] using h
  · have he : (present env r).expiresAt = none := by
      simp [present, h]
    simp [ObjectRow.live, he]

theorem present_deleted (env : Env) (r : Row) : deleted (present env r) = false := by
  cases hd : deleted r with
  | true =>
    have ho : (present env r).originETag = none := by simp [present, hd]
    rw [deleted, ho]
    rfl
  | false =>
    have ho : (present env r).originETag = r.originETag := by simp [present, hd]
    rw [deleted, ho]
    exact hd

theorem present_eq (hl : r.live env.now = true) (hc : r.live env.clock = true) (hd : deleted r = false) : present env r = r := by
  simp [present, hl, hc, hd]

theorem writeCacheValue_expired (hl : r.live env.now = false) (val : Bytes) (opts : SetOptions) (cond : Precondition) :
    writeCacheValue lib env.now val opts cond (some r) = writeCacheValue lib env.now val opts cond none := by
  cases cond <;> simp [writeCacheValue, PublishArgs.check, PublishArgs.write, PublishArgs.versionDiffers, PublishArgs.newExpiry,
    Precondition.sqlAllows, liveOld, hl]

theorem getDel_none (clock : Nat) : getDel clock none = (.bulk none, none) := rfl

theorem getDel_deleted {clock : Nat} (hd : deleted r = true) : getDel clock (some r) = (.bulk none, some r) := by
  rw [getDel, Option.filter_some, hd]
  rfl

theorem getDel_some {clock : Nat} (hd : deleted r = false) :
    getDel clock (some r) = (.bulk (if r.live clock then some r.body.value else none), none) := by
  rw [getDel, Option.filter_some, hd]
  rfl

theorem goRound_none (last : Reply) (n : Nat) : goRound none last n = (last, none) := by
  induction n with
  | zero => rfl
  | succ n ih => exact ih

theorem Alike.leave (row row' : Option Row) (out : Reply × Option Row) : Alike row row' (leave row out) (leave row' out) := by
  obtain ⟨reply, written⟩ := out
  cases written with
  | none => exact ⟨rfl, .inr ⟨rfl, rfl⟩⟩
  | some r => exact ⟨rfl, .inl rfl⟩

/-! ## Rows on which the commands agree -/

theorem mutate_expired (hl : r.live env.now = false) (m : Mutation) : mutate lib env m (some r) = mutate lib env m none := by
  have hseen : seen env (some r) = seen env none := by rw [seen, metadata_expired hl]; rfl
  have hattempt : attempt lib env m (some r) = attempt lib env m none := by
    simp [attempt, hseen, writeCacheValue_expired hl]
  rw [mutate, mutate, hattempt]

theorem mutateOp_expired (hl : r.live env.now = false) (op : KeyOps.Op) :
    Alike (some r) none (mutateOp lib env op (some r)) (mutateOp lib env op none) := by
  unfold mutateOp
  cases op.mutation with
  | none => exact ⟨rfl, .inr ⟨rfl, rfl⟩⟩
  | some m =>
    simp only [mutate_expired hl]
    exact Alike.leave _ _ _

/-- An expired row that `GetDel` does not take for live is absent for all. -/
theorem asAbsent_of_expired (hl : r.live env.now = false) (hg : deleted r = true ∨ r.live env.clock = false) (c : Command) :
    AsAbsent lib env r c := by
  have hsame : ∀ reply : Reply, Alike (some r) none (reply, some r) (reply, none) := fun _ => ⟨rfl, .inr ⟨rfl, rfl⟩⟩
  have hv : visible env.now (some r) = visible env.now none := visible_expired hl
  have hm : metadata env.now (some r) = metadata env.now none := metadata_expired hl
  have hf : fetch env.now (some r) = fetch env.now none := by simp only [fetch, hv, hm]
  have ht : ∀ f, ttl env.now (some r) f = ttl env.now none f := fun f => by simp only [ttl, hv]
  have hu : ∀ cond e, update env.now (some r) cond e = update env.now none cond e := fun cond e => by simp only [update, hv]
  cases c with
  | get | mget => simp only [AsAbsent, exec, hf, hsame]
  | exists_ | dbSize => simp only [AsAbsent, exec, hv, hsame]
  | ttl | pttl => simp only [AsAbsent, exec, ht, hsame]
  | expire | persist => simp only [AsAbsent, exec, hu, Alike.leave]
  | getDel =>
    cases hd : deleted r with
    | true => simp only [AsAbsent, exec, getDel_deleted hd, getDel_none, hsame]
    | false =>
      have hc : r.live env.clock = false := hg.resolve_left (by simp [hd])
      simp only [AsAbsent, exec, getDel_some hd, hc, getDel_none]
      exact ⟨rfl, .inl rfl⟩
  | strLen | getRange | type => simp only [AsAbsent, exec, hm, hsame]
  | set val opts returnOld =>
    cases returnOld with
    | true => exact mutateOp_expired hl _
    | false => simp [AsAbsent, exec, writeCacheValue_expired hl, Alike.leave]
  | getSet | append | incr => exact mutateOp_expired hl _

theorem asExisting_of_live (hl : r.live env.now = true) (hc : r.live env.clock = true) (hd : deleted r = false) (c : Command) :
    AsExisting lib env r c := by
  rw [AsExisting, present_eq hl hc hd]
  exact Alike.refl _ _

/-! ## Rows on which they do not -/

theorem fetch_present (env : Env) (r : Row) : fetch env.now (some (present env r)) = some r.body.value :=
  fetch_some (present_live env r).1 (present_deleted env r)

/-- `GET` does not find it. -/
theorem not_asExisting_of_invisible (hv : visible env.now (some r) = none) : ¬ AsExisting lib env r .get := by
  rintro ⟨hreply, -⟩
  have hnone : fetch env.now (some r) = none := by rw [fetch, hv]
  simp only [exec, fetch_present, hnone] at hreply
  cases hreply

/-- `TYPE` finds it. -/
theorem not_asAbsent_of_live (hl : r.live env.now = true) : ¬ AsAbsent lib env r .type := by
  rintro ⟨hreply, -⟩
  have hnone : metadata env.now none = none := rfl
  simp [exec, metadata_some hl, hnone] at hreply

/-- `GETDEL` finds it. -/
theorem not_asAbsent_of_clock (hc : r.live env.clock = true) (hd : deleted r = false) : ¬ AsAbsent lib env r .getDel := by
  rintro ⟨hreply, -⟩
  simp only [exec, getDel_some hd, hc, if_true, getDel_none] at hreply
  cases hreply

/-- `GETSET` does not find it and cannot create it. -/
theorem not_asExisting_of_clock (hl : r.live env.now = true) (hc : r.live env.clock = false) : ¬ AsExisting lib env r (.getSet []) := by
  rintro ⟨hreply, -⟩
  obtain ⟨hpl, hpc⟩ := present_live env r
  have hseen : seen env (some r) = none := by simp [seen, metadata_some hl, hc]
  have hseen' : seen env (some (present env r)) = some (present env r) := by simp [seen, metadata_some hpl, hpc]
  have hrefused : (exec lib env (some r) (.getSet [])).1 = .error .contention := by
    simp [exec, mutateOp, KeyOps.Op.mutation, mutate, attempt, hseen, KeyOps.cacheMutationRetries, KeyOps.When.precondition,
      Precondition.allows, expects, writeCacheValue, PublishArgs.check, Precondition.sqlAllows, liveOld, hl, goRound_none, leave]
  have hwritten : (exec lib env (some (present env r)) (.getSet [])).1 = .bulk (some r.body.value) := by
    simp [exec, mutateOp, KeyOps.Op.mutation, mutate, attempt, hseen', KeyOps.cacheMutationRetries, KeyOps.When.precondition,
      Precondition.allows, expects, writeCacheValue, PublishArgs.check, Precondition.sqlAllows, liveOld, hpl, goRound, leave, etagOld,
      PublishArgs.versionDiffers, PublishArgs.write, respond]
    rfl
  rw [hrefused, hwritten] at hreply
  cases hreply

/-- **Visibility.** All commands treat the row as a key, or all as none, exactly when a live row is
no tombstone and live by both clocks, and an expired row that is no tombstone has expired by both.
-/
theorem commands_agree_iff (lib : Lib) (env : Env) (r : Row) : Agree lib env r ↔
    if r.live env.now then deleted r = false ∧ r.live env.clock = true else deleted r = true ∨ r.live env.clock = false := by
  split
  · next hl =>
    constructor
    · rintro (habsent | hexisting)
      · exact absurd (habsent .type) (not_asAbsent_of_live hl)
      · constructor
        · cases hd : deleted r with
          | false => rfl
          | true => exact absurd (hexisting .get) (not_asExisting_of_invisible (visible_deleted hd))
        · cases hc : r.live env.clock with
          | true => rfl
          | false => exact absurd (hexisting (.getSet [])) (not_asExisting_of_clock hl hc)
    · rintro ⟨hd, hc⟩
      exact .inr (asExisting_of_live hl hc hd)
  · next hl =>
    have hl : r.live env.now = false := by simpa using hl
    constructor
    · rintro (habsent | hexisting)
      · by_contra h
        obtain ⟨hd, hc⟩ := not_or.1 h
        exact not_asAbsent_of_clock (by simpa using hc) (by simpa using hd) (habsent .getDel)
      · exact absurd (hexisting .get) (not_asExisting_of_invisible (visible_expired hl))
    · intro hg
      exact .inl (asAbsent_of_expired hl hg)

/-- A tombstone as `CacheTombstone` writes it. -/
def tombstone : Row := ⟨"d41d8cd98f00b204e9800998ecf8427e".toList, ⟨[], true⟩, some 60000000, some "deleted:1".toList, 0⟩

/-- `EXISTS` says that there is no such key, `TYPE` that it is a string, and `SET NX` is refused;
the clocks are the same. -/
theorem tombstone_disputed : (∀ lib : Lib, (exec lib ⟨1, 1, 0, 1⟩ (some tombstone) .exists_).1 = .int 0 ∧
      (exec lib ⟨1, 1, 0, 1⟩ (some tombstone) .type).1 = .status "string" ∧
      (exec lib ⟨1, 1, 0, 1⟩ (some tombstone) (.set [1] ⟨.nx, none, false⟩ false)).1 = .bulk none) ∧
    ¬ ∀ (lib : Lib) (env : Env) (r : Row), env.clock = env.now → Agree lib env r := by
  refine ⟨fun lib => ⟨rfl, rfl, rfl⟩, fun h => ?_⟩
  rcases h ⟨fun _ => []⟩ ⟨1, 1, 0, 1⟩ tombstone rfl with habsent | hexisting
  · exact not_asAbsent_of_live (by decide) (habsent .type)
  · exact not_asExisting_of_invisible (visible_deleted (by decide)) (hexisting .get)

end Pgvs3.Visibility
