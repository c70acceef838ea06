import Pgvs3.Data.Text
import Pgvs3.Ns
/-!
# The objects row, preconditions, and what `publish_value` decides and writes

The row is generic in the type `V` of origin versions and in the type `B` of what the row stores.
User metadata, content type and checksums are copied by every path and read by none of the functions
below.
-/

namespace Pgvs3

open Data (isSpace trim)

/-- `schema.sql:293-331`. -/
structure ObjectRow (V B : Type) where
  etag : Text
  body : B
  expiresAt : Option Nat
  originETag : Option V
  createdAt : Nat
deriving DecidableEq, Repr

/-- A row is live at `now` when it has no expiry or expires later (`store/object.go:136-138`). -/
def ObjectRow.live {V B : Type} (r : ObjectRow V B) (now : Nat) : Bool :=
  match r.expiresAt with
  | none => true
  | some e => now < e

/-- Existence of a live row, as `live_old` and `live` are computed. -/
def liveOld {V B : Type} (old : Option (ObjectRow V B)) (now : Nat) : Bool :=
  match old with
  | none => false
  | some r => r.live now

/-- The old etag; empty when there is no row. -/
def etagOld {V B : Type} (old : Option (ObjectRow V B)) : Text :=
  match old with
  | none => []
  | some r => r.etag

/-- `store/object.go:185-188`. -/
inductive Precondition where
  | none
  | ifAbsent
  | ifPresent
  | ifMatch (etag : Text)
deriving DecidableEq, Repr

/-! ## ETag headers -/

/-- `strings.TrimPrefix(s, "W/")`. -/
def trimWeak : Text → Text
  | 'W' :: '/' :: s => s
  | s => s

/-- `strings.SplitSeq(header, ",")`. -/
def splitComma : Text → List Text
  | [] => [[]]
  | c :: s =>
    if c = ',' then [] :: splitComma s
    else match splitComma s with
      | [] => [[c]]
      | t :: ts => (c :: t) :: ts

def tokenMatches (want token : Text) : Bool :=
  let t := trim isSpace token
  if t = ['*'] then true
  else
    let u := trim (· == '"') (trimWeak t)
    u != [] && u == want

/-- `store/object.go:523-536`. -/
def etagMatches (header etag : Text) : Bool :=
  let want := trim (· == '"') (trimWeak (trim isSpace etag))
  (splitComma header).any (tokenMatches want)

/-! ## Preconditions -/

/-- `Precondition.Allows` (`store/object.go:229-240`). -/
def Precondition.allows : Precondition → Bool → Text → Bool
  | .none, _, _ => true
  | .ifAbsent, exists_, _ => !exists_
  | .ifPresent, exists_, _ => exists_
  | .ifMatch e, exists_, etag => exists_ && e != [] && etagMatches e etag

/-- The same tests in `publish_value`, where `if_match` compares the texts
(`store/object.go:190-202`). -/
def Precondition.sqlAllows : Precondition → Bool → Text → Bool
  | .none, _, _ => true
  | .ifAbsent, live, _ => !live
  | .ifPresent, live, _ => live
  | .ifMatch e, live, etag => live && etag == e

/-- The preconditions that can hold of an absent key. -/
def Precondition.creates : Precondition → Bool
  | .none | .ifAbsent => true
  | .ifPresent | .ifMatch _ => false

theorem Precondition.creates_of_allows {p : Precondition} {e : Text} (h : p.allows false e = true) : p.creates = true := by
  cases p <;> simp_all [allows, creates]

theorem Precondition.creates_of_sqlAllows {p : Precondition} {e : Text} (h : p.sqlAllows false e = true) : p.creates = true := by
  cases p <;> simp_all [sqlAllows, creates]

/-! ## publish_value -/

/-- The arguments of `publish_value` that decide what it does. -/
structure PublishArgs (V B : Type) where
  etag : Text
  body : B
  cond : Precondition
  expiresAt : Option Nat
  keepTTL : Bool
  originETag : Option V
  expected : Option V
deriving DecidableEq, Repr

inductive Outcome where
  | ok
  | precondition
  | stale
deriving DecidableEq, Repr

namespace PublishArgs

variable {V B : Type} [DecidableEq V] (p : PublishArgs V B) (old : Option (ObjectRow V B)) (now : Nat)

/-- The old row is read and locked only when a condition or an expected version needs it. -/
def reads : Bool := p.cond != .none || p.expected.isSome

/-- `old_origin IS DISTINCT FROM p_expected_origin`, when a version is expected and a row exists. -/
def versionDiffers : Bool :=
  match p.expected, old with
  | some e, some r => r.originETag != some e
  | _, _ => false

/-- The tests between the read and the write (`schema.sql:436-516`). -/
def check : Outcome :=
  if !p.cond.sqlAllows (liveOld old now) (etagOld old) then .precondition
  else if p.versionDiffers old then .stale
  else .ok

/-- `expires_at` of the written row. -/
def newExpiry : Option Nat :=
  match old with
  | some r => if p.keepTTL && r.live now then r.expiresAt else p.expiresAt
  | none => p.expiresAt

/-- The row after the upsert; `none` when its `WHERE` clause rejects the conflicting row. -/
def write : Option (ObjectRow V B) :=
  if p.versionDiffers old then none
  else some { etag := p.etag, body := p.body, expiresAt := p.newExpiry old now, originETag := p.originETag, createdAt := now }

end PublishArgs

end Pgvs3
