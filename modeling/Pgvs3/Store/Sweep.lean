import Pgvs3.Ns
/-!
# Budget eviction

`evictCacheOverBudget` (`store.go:1606-1676`): the keys it deletes.

Only rows with an expiry are counted and only they are deleted. A row that another transaction holds
is skipped (`SKIP LOCKED`): the caller leaves it out of the list.
-/

namespace Pgvs3

/-- A row of `objects` with a non-null `expires_at`. -/
structure EvictRow where
  key : Text
  size : Nat
  expiresAt : Nat
  createdAt : Nat
deriving DecidableEq, Repr

/-- `(expires_at, created_at, key)` in ascending order. -/
def evictBefore (a b : EvictRow) : Prop :=
  a.expiresAt < b.expiresAt ∨ (a.expiresAt = b.expiresAt ∧ (a.createdAt < b.createdAt ∨ (a.createdAt = b.createdAt ∧ a.key ≤ b.key)))

instance : DecidableRel evictBefore := fun _ _ => inferInstanceAs (Decidable (_ ∨ _))

def evictOrder (rows : List EvictRow) : List EvictRow := rows.insertionSort evictBefore

/-- The rows whose predecessors add up to less than `excess`. -/
def doomedRows (excess : Nat) : Nat → List EvictRow → List EvictRow
  | _, [] => []
  | prior, r :: rs =>
    if prior < excess then r :: doomedRows excess (prior + r.size) rs else doomedRows excess (prior + r.size) rs

/-- The keys that one call removes from a namespace with the expiring rows `rows`
(`store.go:1606-1676`). -/
def evictCacheOverBudget (rows : List EvictRow) (maxBytes limit : Nat) : List Text :=
  let used := (rows.map (·.size)).sum
  if used ≤ maxBytes then []
  else (doomedRows (used - maxBytes) 0 ((evictOrder rows).take limit)).map (·.key)

end Pgvs3
