import Pgvs3.Cache.Visibility
import Pgvs3.Store.ByteRange
/-!
# GETRANGE and the writes next to it

`cmdGetRange` (`resp/resp.go:661-692`) takes the length from one lookup and the bytes from another.
-/

namespace Pgvs3.Visibility

open List

inductive GetError where
  | notFound | invalidRange
deriving DecidableEq, Repr

/-- `Store.Get` of a range, when the key holds `v` (`store/object.go:787-846`). -/
def getSlice (v : Option Bytes) (rng : ByteRange) : Except GetError Bytes :=
  match v with
  | none => .error .notFound
  | some w =>
    match rng.resolve w.length with
    | none => .error .invalidRange
    | some s => .ok ((w.drop s.start.toNat).take (s.stop.toNat + 1 - s.start.toNat))

/-- The key holds `v` when `MetaHeader` looks it up, and `v'` when `Get` does
(`resp.go:661-692`). -/
def cmdGetRange (first last : Int) (v v' : Option Bytes) : Except GetError Bytes :=
  let size : Int := (v.getD []).length
  if size = 0 then .ok []
  else
    let first := if first < 0 then max (size + first) 0 else first
    let last := if last < 0 then size + last else last
    if last < first ∨ size ≤ first ∨ last < 0 then .ok []
      else getSlice v' ⟨first, min last (size - 1), -1, true⟩

/-- The bytes `[a, b)` of a value of `size` bytes that the indices select, if they select any. -/
def selected (first last size : Int) : Option (Nat × Nat) :=
  let first := if first < 0 then max (size + first) 0 else first
  let last := if last < 0 then size + last else last
  if last < first ∨ size ≤ first ∨ last < 0 then none
    else some (first.toNat, (min last (size - 1)).toNat + 1)

variable {first last : Int} {a b : Nat}

theorem selected_lt {size : Int} (h : selected first last size = some (a, b)) : a < b := by
  simp only [selected] at h
  generalize (if first < 0 then max (size + first) 0 else first) = i at h
  generalize (if last < 0 then size + last else last) = j at h
  by_cases hn : j < i ∨ size ≤ i ∨ j < 0
  · rw [if_pos hn] at h
    cases h
  · rw [if_neg hn] at h
    cases h
    omega

theorem getRange_eq (first last : Int) (x : Bytes) :
    getRange first last x = (selected first last x.length).elim [] fun s => x.extract s.1 s.2 := by
  simp only [getRange, selected]
  generalize (if first < 0 then max ((x.length : Int) + first) 0 else first) = i
  generalize (if last < 0 then (x.length : Int) + last else last) = j
  by_cases h : j < i ∨ (x.length : Int) ≤ i ∨ j < 0 <;> simp [h]

/-- The second lookup is made only where the indices select bytes of the first value. -/
theorem cmdGetRange_eq (first last : Int) (v v' : Option Bytes) : cmdGetRange first last v v' =
    (selected first last (v.getD []).length).elim (.ok []) fun s =>
      getSlice v' ⟨s.1, (s.2 : Int) - 1, -1, true⟩ := by
  have hfirst : 0 ≤ if first < 0 then max (((v.getD []).length : Int) + first) 0 else first := by
    split <;> omega
  simp only [cmdGetRange, selected]
  generalize (if first < 0 then max (((v.getD []).length : Int) + first) 0 else first) =
    i at hfirst ⊢
  generalize (if last < 0 then ((v.getD []).length : Int) + last else last) = j
  by_cases h : j < i ∨ ((v.getD []).length : Int) ≤ i ∨ j < 0
  · simp [h]
  · rw [if_neg (by omega), if_neg h, if_neg h, Option.elim_some]
    congr 2 <;> omega

theorem getSlice_some (w : Bytes) (h : a < b) : getSlice (some w) ⟨a, (b : Int) - 1, -1, true⟩ =
    if w = [] then .ok [] else if w.length ≤ a then .error .invalidRange
      else .ok (w.extract a b) := by
  by_cases hw : w = []
  · simp [getSlice, ByteRange.resolve, hw]
  · have hpos := length_pos_iff.2 hw
    simp only [getSlice, ByteRange.resolve, Bool.not_true, Bool.false_eq_true, if_false, hw]
    rw [if_neg (by omega), if_neg (by omega), Int.max_eq_left (by omega)]
    by_cases hlen : w.length ≤ a
    · simp [hlen]
    · rw [if_neg (by omega), if_pos (by omega), if_neg (by omega), if_neg hlen, extract_eq]
      -- a slice that ends with the value is not cut by the rest of the range
      rcases Nat.le_total b w.length with hb | hb
      · rw [Int.min_eq_left (by omega)]
        simp only [show ((b : Int) - 1).toNat + 1 = b by omega, Int.toNat_natCast]
      · rw [Int.min_eq_right (by omega)]
        simp only [Int.toNat_natCast, Except.ok.injEq]
        rw [take_of_length_le, take_of_length_le] <;> rw [length_drop] <;> omega

/-- `held` is what the key holds in the course of the call. The reply is that of one of these values
exactly if the indices select nothing of the first value found, or the second is empty, or it
reaches to where they begin and one held value has there the bytes that it has. -/
theorem getRange_atomic_iff (first last : Int) {v v' : Option Bytes} {held : List (Option Bytes)}
    (hv : v ∈ held) (hv' : v' ∈ held) :
    (∃ x ∈ held, cmdGetRange first last v v' = .ok (getRange first last (x.getD []))) ↔
      ∀ a b, selected first last (v.getD []).length = some (a, b) →
        ∃ w, v' = some w ∧ (w = [] ∨ a < w.length ∧
          ∃ x ∈ held, getRange first last (x.getD []) = w.extract a b) := by
  rw [cmdGetRange_eq]
  cases hs : selected first last (v.getD []).length with
  | none =>
    refine iff_of_true ⟨v, hv, ?_⟩ (by simp)
    rw [getRange_eq, hs]
    rfl
  | some s =>
    obtain ⟨a, b⟩ := s
    rw [Option.elim_some]
    cases v' with
    | none => simp [getSlice]
    | some w =>
      rw [getSlice_some w (selected_lt hs)]
      by_cases hw : w = []
      · subst hw
        refine iff_of_true ⟨some [], hv', ?_⟩ fun _ _ _ => ⟨[], rfl, .inl rfl⟩
        simp [getRange]
      · by_cases hlen : w.length ≤ a
        · simp [hw, hlen]
        · simp [hw, hlen, Nat.lt_of_not_le hlen, eq_comm]

theorem append_between_atomic : ∃ x ∈ [some [1, 2], some [1, 2, 3]],
    cmdGetRange (-1) 5 (some [1, 2]) (some [1, 2, 3]) = .ok (getRange (-1) 5 (x.getD [])) := by
  refine (getRange_atomic_iff (-1) 5 (by simp) (by simp)).2 fun a b h => ⟨[1, 2, 3], rfl, .inr ?_⟩
  cases (show selected (-1) 5 2 = some (1, 2) by decide).symm.trans h
  exact ⟨by decide, some [1, 2], by simp, by decide⟩

/-- A DEL between the lookups. -/
theorem delete_between_fails : ¬ ∀ (v v' : Option Bytes) (held : List (Option Bytes))
    (first last : Int), v ∈ held → v' ∈ held →
    ∃ x ∈ held, cmdGetRange first last v v' = .ok (getRange first last (x.getD [])) := by
  intro h
  obtain ⟨x, -, hx⟩ := h (some [1]) none [some [1], none] 0 0 (by simp) (by simp)
  cases hx

end Pgvs3.Visibility
