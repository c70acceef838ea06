import Mathlib
/-!
# Byte ranges (`store/object.go:140-183`)
-/

namespace Pgvs3

/-- A requested range; `-1` stands for an absent bound (`store/object.go:140-143`). -/
structure ByteRange where
  first : Int
  last : Int
  suffix : Int
  requested : Bool
deriving DecidableEq, Repr

/-- `store/object.go:145-147`. -/
def ByteRange.whole : ByteRange := ⟨0, -1, -1, false⟩

/-- `store/object.go:153-156`. -/
structure Span where
  start : Int
  stop : Int
  ranged : Bool
deriving DecidableEq, Repr

/-- `ByteRange.Resolve`; `none` is `ErrInvalidRange` (`store/object.go:158-183`). -/
def ByteRange.resolve (r : ByteRange) (size : Int) : Option Span :=
  if !r.requested then some ⟨0, size - 1, false⟩
  else if size ≤ 0 then some ⟨0, -1, true⟩
  else if 0 ≤ r.suffix then
    if r.suffix = 0 then none else some ⟨max (size - r.suffix) 0, size - 1, true⟩
  else
    let start := max r.first 0
    if size ≤ start then none
    else if 0 ≤ r.last then
      if r.last < start then none else some ⟨start, min r.last (size - 1), true⟩
    else some ⟨start, size - 1, true⟩

/-- A resolved span lies inside the object; it is empty only for an empty object. -/
theorem ByteRange.resolve_bounds {r : ByteRange} {size : Int} {s : Span} (h : r.resolve size = some s)
    (hs : 0 < size) : 0 ≤ s.start ∧ s.start ≤ s.stop ∧ s.stop < size := by
  simp only [resolve] at h
  split_ifs at h
  all_goals
    cases h
    simp only
    omega

end Pgvs3
