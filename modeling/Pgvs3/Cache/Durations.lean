import Mathlib
/-!
# Durations

A `time.Duration` counts nanoseconds in an `int64`, and the product of a number and its unit keeps
the low 64 bits.
-/

namespace Pgvs3.Durations

def second : Int := 1000000000

def millisecond : Int := 1000000

/-- `time.Duration(n) * unit`. -/
def duration (n unit : Int) : Int := (n * unit).bmod (2 ^ 64)

inductive Name where
  | ex | setEX | expire
  | px | psetEX | pexpire
  | exAt | expireAt
  | pxAt | pexpireAt
deriving DecidableEq, Repr

/-- `time.Unix(n, 0)` counts the seconds from the year 1 on in an `int64`. -/
def unix (n : Int) : Int := (n + 62135596800).bmod (2 ^ 64) - 62135596800

/-- `resp/resp.go:934-947`, in nanoseconds. -/
def respExpiration (name : Name) (n now : Int) : Int :=
  match name with
  | .ex | .setEX | .expire => now + duration n second
  | .px | .psetEX | .pexpire => now + duration n millisecond
  | .exAt | .expireAt => unix n * second
  | .pxAt | .pexpireAt => n * millisecond

/-- `ojs/ojs.go:902-910`. -/
def visibilityTimeout : Option Int → Except String Int
  | none => .ok (30 * second)
  | some ms =>
    if ms < 0 then .error "visibility_timeout_ms must be >= 0" else .ok (duration ms millisecond)

/-- `NackMessage` (`store/stream.go:325-331`). -/
def nackMessage (retryAfter : Int) : Int := if retryAfter ≤ 0 then 60 * second else retryAfter

/-- `ojs/streams.go:309-319`. -/
def handleStreamNack (retryAfterMS : Int) : Except String Int :=
  if retryAfterMS < 0 then .error "retry_after_ms must be non-negative"
    else .ok (nackMessage (duration retryAfterMS millisecond))

/-- Where a client says how long. -/
inductive Param where
  | resp (name : Name)
  | visibilityTimeoutMS | retryAfterMS
deriving DecidableEq, Repr

def Param.unit : Param → Option Int
  | resp .ex | resp .setEX | resp .expire => some second
  | resp .px | resp .psetEX | resp .pexpire | visibilityTimeoutMS | retryAfterMS => some millisecond
  | _ => none

/-- The deadline of a command, or the delay that the store is given. `EXPIRE` takes any number, the
other commands what is positive (`resp/resp.go:582-586`, `897-933`). -/
def Param.accept (n now : Int) : Param → Except String Int
  | resp name =>
    if n ≤ 0 ∧ name ≠ .expire ∧ name ≠ .pexpire then .error "invalid expire time"
    else .ok (respExpiration name n now)
  | visibilityTimeoutMS => visibilityTimeout (some n)
  | retryAfterMS => handleStreamNack n

def Param.base (now : Int) : Param → Int
  | resp _ => now
  | visibilityTimeoutMS | retryAfterMS => 0

theorem duration_eq_iff {n unit : Int} (h : 0 < n * unit) :
    duration n unit = n * unit ↔ n * unit < 2 ^ 63 := by
  constructor
  · intro he
    have hlt : (n * unit).bmod (2 ^ 64) < ((2 ^ 64 : Nat) + 1) / 2 := Int.bmod_lt (by decide)
    rw [← duration, he] at hlt
    omega
  · intro hlt
    exact Int.bmod_eq_of_le (by omega) (by omega)

theorem nackMessage_eq_iff {n unit : Int} (h : 0 < n * unit) :
    nackMessage (duration n unit) = n * unit ↔ n * unit < 2 ^ 63 := by
  have hiff := duration_eq_iff h
  unfold nackMessage second
  split <;> omega

theorem ahead_iff {d base due : Int} {P : Prop} (hpos : base < due) (h : d = due ↔ P) :
    (∀ d', (.ok d : Except String Int) = .ok d' → d' = due ∧ base < d') ↔ P := by
  rw [← h]
  refine ⟨fun hall => (hall d rfl).1, fun hd d' hd' => ?_⟩
  cases hd'
  exact ⟨hd, hd ▸ hpos⟩

/-- A positive number that is accepted gives the time it names, which lies ahead, exactly if it is
less than `2 ^ 63` nanoseconds. -/
theorem durations_exact_iff {p : Param} {unit n : Int} (hu : p.unit = some unit) (hn : 0 < n)
    (now : Int) :
    (∀ d, p.accept n now = .ok d → d = p.base now + n * unit ∧ p.base now < d) ↔
      n * unit < 2 ^ 63 := by
  have hs : 0 < n * second := Int.mul_pos hn (by decide)
  have hms : 0 < n * millisecond := Int.mul_pos hn (by decide)
  cases p with
  | resp name =>
    have hpos : ¬ (n ≤ 0 ∧ name ≠ .expire ∧ name ≠ .pexpire) := by omega
    rw [Param.accept, if_neg hpos, Param.base]
    cases name with
    | ex | setEX | expire =>
      cases hu
      exact ahead_iff (by omega) ((Int.add_right_inj now).trans (duration_eq_iff hs))
    | px | psetEX | pexpire =>
      cases hu
      exact ahead_iff (by omega) ((Int.add_right_inj now).trans (duration_eq_iff hms))
    | _ => cases hu
  | visibilityTimeoutMS =>
    cases hu
    rw [Param.accept, visibilityTimeout, if_neg (by omega), Param.base, Int.zero_add]
    exact ahead_iff hms (duration_eq_iff hms)
  | retryAfterMS =>
    cases hu
    rw [Param.accept, handleStreamNack, if_neg (by omega), Param.base, Int.zero_add]
    exact ahead_iff hms (nackMessage_eq_iff hms)

theorem ten_seconds_ahead : (Param.resp .ex).accept 10 7 = .ok 10000000007 ∧
    (7 : Int) < 10000000007 :=
  ⟨rfl, ((@durations_exact_iff (.resp .ex) second 10 rfl (by decide) 7).2 (by decide) _ rfl).2⟩

/-- `SET k v EX 9223372037` has expired when it is written. -/
theorem long_expiry_past : ¬ ∀ (p : Param) (unit n now : Int), p.unit = some unit → 0 < n →
    n < 2 ^ 63 →
    ∀ d, p.accept n now = .ok d → d = p.base now + n * unit ∧ p.base now < d := by
  intro h
  have := (h (.resp .ex) second 9223372037 0 rfl (by decide) (by decide) _ rfl).2
  revert this
  decide

end Pgvs3.Durations
