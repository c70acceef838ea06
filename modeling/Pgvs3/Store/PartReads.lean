import Pgvs3.Data.Bytes
import Pgvs3.Store.ByteRange
/-!
# GET by part number

`getPart` is `getObject` with `partNumber` and neither `Range` nor a condition.

The bounds come from one lookup and the bytes from another, and the bounds of an empty part mean
something else as a range: `empty_part_answered_whole`.
-/

namespace Pgvs3.Parts

open List

/-- A version of an object; `sizes` are those of its parts, `none` for a single upload. -/
structure Version where
  data : Bytes
  sizes : Option (List Nat)
  sized : ∀ l ∈ sizes, l ≠ [] ∧ l.sum = data.length

/-- `request.go:221-226`. -/
def partsCount (v : Version) : Nat := (v.sizes.map List.length).getD 1

/-- `PartEnds` has the sums (`request.go:228-240`). -/
def partBounds (v : Version) (n : Nat) : Option (Int × Int) :=
  if n < 1 ∨ partsCount v < n then none
  else match v.sizes with
    | none => some (0, v.data.length - 1)
    | some l => some ((l.take (n - 1)).sum, (l.take n).sum - 1)

/-- `head` is found by the first lookup and `v` by the second; `none` is an error
(`s3/object.go:390-470`). -/
def getPart (head v : Version) (n : Nat) : Option Bytes := do
  let (first, last) ← partBounds head n
  let span ← (ByteRange.mk first last (-1) true).resolve v.data.length
  if v.data.length = 0 then none else some (v.data.extract span.start.toNat (span.stop + 1).toNat)

def partEnd (v : Version) (n : Nat) : Nat := (v.sizes.getD [v.data.length] |>.take n).sum

def part (v : Version) (n : Nat) : Bytes := v.data.extract (partEnd v (n - 1)) (partEnd v n)

/-- The answer is the part of one of the two versions. -/
def Answered (v v' : Version) (n : Nat) : Prop :=
  getPart v v' n = some (part v n) ∨ (n ≤ partsCount v' ∧ getPart v v' n = some (part v' n))

/-- The bounds of the part select, in the version that is read, the bytes of the part of one
version: those of a part that has bytes as they stand, those of an empty part only at the start and
as the whole object. -/
def Aligned (v v' : Version) (n : Nat) : Prop :=
  if part v n = [] then partEnd v n = 0 ∧ v'.data ≠ [] ∧ n ≤ partsCount v' ∧ part v' n = v'.data
  else partEnd v (n - 1) < v'.data.length ∧ (v'.data.extract (partEnd v (n - 1)) (partEnd v n) = part v n ∨
    n ≤ partsCount v' ∧ v'.data.extract (partEnd v (n - 1)) (partEnd v n) = part v' n)

/-- The answers for `1, 2, …, k` one after the other, of an object that stays. -/
def getParts (v : Version) : Nat → Option Bytes
  | 0 => some []
  | k + 1 => (getParts v k).bind fun x => (getPart v v (k + 1)).map (x ++ ·)

variable {v w : Version} {n : Nat}

theorem partBounds_eq (h1 : 1 ≤ n) (hn : n ≤ partsCount v) :
    partBounds v n = some ((partEnd v (n - 1) : Int), (partEnd v n : Int) - 1) := by
  rw [partBounds, if_neg (by omega)]
  cases hs : v.sizes with
  | some l => simp [partEnd, hs]
  | none =>
    have : n = 1 := by simp [partsCount, hs] at hn; omega
    subst this
    simp [partEnd, hs]

@[simp] theorem partEnd_zero (v : Version) : partEnd v 0 = 0 := by
  simp [partEnd]

theorem sum_sizes (v : Version) : (v.sizes.getD [v.data.length]).sum = v.data.length := by
  cases hs : v.sizes with
  | none => simp
  | some l => exact (v.sized l hs).2

theorem partEnd_le (v : Version) (n : Nat) : partEnd v n ≤ v.data.length := by
  have := sum_take_add_sum_drop (v.sizes.getD [v.data.length]) n
  rw [sum_sizes] at this
  exact Nat.le_of_add_right_le this.le

theorem partEnd_mono (v : Version) {m : Nat} (h : m ≤ n) : partEnd v m ≤ partEnd v n := by
  have := sum_take_add_sum_drop ((v.sizes.getD [v.data.length]).take n) m
  rw [take_take, Nat.min_eq_left h] at this
  exact Nat.le_of_add_right_le this.le

theorem partEnd_count (v : Version) : partEnd v (partsCount v) = v.data.length := by
  have : partsCount v = (v.sizes.getD [v.data.length]).length := by
    cases hs : v.sizes <;> simp [partsCount, hs]
  rw [partEnd, this, take_length, sum_sizes]

theorem part_eq_nil_iff (v : Version) (n : Nat) : part v n = [] ↔ partEnd v (n - 1) = partEnd v n := by
  have hmono := partEnd_mono v (Nat.sub_le n 1)
  have hle := partEnd_le v n
  rw [part, ← length_eq_zero_iff, length_extract]
  omega

theorem length_part (v : Version) (n : Nat) : (part v n).length = partEnd v n - partEnd v (n - 1) := by
  rw [part, length_extract, Nat.min_eq_left (partEnd_le v n)]

/-- As a range the bounds `e` and `e - 1` of an empty part stand for the whole object, or for
nothing. -/
theorem getPart_eq (h1 : 1 ≤ n) (hn : n ≤ partsCount v) : getPart v w n =
    if part v n = [] then (if partEnd v n = 0 ∧ w.data ≠ [] then some w.data else none)
    else if w.data.length ≤ partEnd v (n - 1) then none else some (w.data.extract (partEnd v (n - 1)) (partEnd v n)) := by
  have hmono := partEnd_mono v (Nat.sub_le n 1)
  simp only [getPart, partBounds_eq h1 hn, Option.bind_eq_bind, Option.bind_some, ByteRange.resolve, Bool.not_true, Bool.false_eq_true,
    if_false, part_eq_nil_iff]
  by_cases h0 : w.data = []
  · simp [h0]
  · have hpos := length_pos_iff.2 h0
    rw [if_neg (by omega), if_neg (by omega), Int.max_eq_left (by omega)]
    by_cases he : partEnd v (n - 1) = partEnd v n
    · by_cases hz : partEnd v n = 0
      · simp [he, hz, h0]
      · simp only [he, hz, false_and, if_false, if_true]
        split_ifs <;> first | rfl | omega
    · by_cases hlen : w.data.length ≤ partEnd v (n - 1)
      · simp [he, hlen]
      · rw [if_neg (by omega), if_pos (by omega), if_neg (by omega), if_neg he, if_neg hlen, Option.bind_some, if_neg (by omega)]
        -- the end of the range is cut to the size, as the extract is
        rw [Int.toNat_natCast, Option.some.injEq, extract_eq, extract_eq]
        rcases Nat.le_total (partEnd v n) w.data.length with hb | hb
        · rw [Int.min_eq_left (by omega), Int.sub_add_cancel, Int.toNat_natCast]
        · have hd := w.data.length_drop (i := partEnd v (n - 1))
          rw [Int.min_eq_right (by omega), Int.sub_add_cancel, Int.toNat_natCast, take_of_length_le hd.le,
            take_of_length_le (by omega)]

theorem answered_iff (h1 : 1 ≤ n) (hn : n ≤ partsCount v) : Answered v w n ↔ Aligned v w n := by
  rw [Answered, Aligned, getPart_eq h1 hn]
  by_cases hp : part v n = []
  · by_cases hz : partEnd v n = 0 ∧ w.data ≠ []
    · simp [hp, hz, eq_comm]
    · have : ¬ (partEnd v n = 0 ∧ w.data ≠ [] ∧ n ≤ partsCount w ∧ part w n = w.data) := fun h => hz ⟨h.1, h.2.1⟩
      simp [hp, hz, this]
  · by_cases hlen : w.data.length ≤ partEnd v (n - 1)
    · simp [hp, hlen]
    · simp [hp, hlen, Nat.lt_of_not_le hlen]

theorem getPart_self (h1 : 1 ≤ n) (hn : n ≤ partsCount v) (hp : part v n ≠ []) : getPart v v n = some (part v n) := by
  have hlt := (part_eq_nil_iff v n).not.1 hp
  have hmono := partEnd_mono v (Nat.sub_le n 1)
  have hle := partEnd_le v n
  rw [getPart_eq h1 hn, if_neg hp, if_neg (by omega), part]

variable {k : Nat} {x : Bytes}

theorem getParts_eq (hk : k ≤ partsCount v) (h : ∀ n, 1 ≤ n → n ≤ k → part v n ≠ []) :
    getParts v k = some (v.data.extract 0 (partEnd v k)) := by
  induction k with
  | zero => simp [getParts]
  | succ k ih =>
    have hpart := getPart_self (by omega) hk (h (k + 1) (by omega) le_rfl)
    rw [getParts, ih (by omega) fun n h1 hn => h n h1 (by omega), Option.bind_some, hpart, Option.map_some, Option.some.injEq]
    exact extract_append_extract v.data (Nat.zero_le _) (partEnd_mono v (Nat.le_succ k))

/-- The answers are no shorter than the parts, and longer where one is empty. -/
theorem length_getParts (hk : k ≤ partsCount v) (h : getParts v k = some x) :
    partEnd v k ≤ x.length ∧ (x.length = partEnd v k → ∀ n, 1 ≤ n → n ≤ k → part v n ≠ []) := by
  induction k generalizing x with
  | zero => exact ⟨by simp, fun _ n h1 hn => by omega⟩
  | succ k ih =>
    obtain ⟨y, hy, h⟩ := Option.bind_eq_some_iff.1 h
    obtain ⟨z, hz, rfl⟩ := Option.map_eq_some_iff.1 h
    obtain ⟨hle, hall⟩ := ih (by omega) hy
    have hmono := partEnd_mono v (Nat.le_succ k)
    have hlast : partEnd v (k + 1) - partEnd v k ≤ z.length ∧ (part v (k + 1) = [] → 0 < z.length) := by
      by_cases hp : part v (k + 1) = []
      · rw [getPart_eq (by omega) hk, if_pos hp] at hz
        split at hz
        · next h0 =>
          cases hz
          exact ⟨by omega, fun _ => length_pos_iff.2 h0.2⟩
        · cases hz
      · rw [getPart_self (by omega) hk hp] at hz
        cases hz
        exact ⟨(length_part v (k + 1)).ge, fun h => absurd h hp⟩
    rw [length_append]
    refine ⟨by omega, fun hlen n h1 hn hp => ?_⟩
    by_cases hnk : n ≤ k
    · exact hall (by omega) n h1 hnk hp
    · obtain rfl : n = k + 1 := by omega
      have := hlast.2 hp
      have := (part_eq_nil_iff v (k + 1)).1 hp
      rw [Nat.add_sub_cancel] at this
      omega

/-- **GET by part number.** One answer is the part of one version exactly if the bounds select it in
the version that is read; all answers of an object that stays make it up exactly if no part is
empty. -/
theorem partReads_exact_iff (v : Version) :
    (∀ v' n, 1 ≤ n → n ≤ partsCount v → (Answered v v' n ↔ Aligned v v' n)) ∧
      (getParts v (partsCount v) = some v.data ↔ ∀ n, 1 ≤ n → n ≤ partsCount v → part v n ≠ []) := by
  refine ⟨fun v' n h1 hn => answered_iff h1 hn, fun h => ?_, fun h => ?_⟩
  · exact (length_getParts le_rfl h).2 (partEnd_count v).symm
  · rw [getParts_eq le_rfl h, partEnd_count, extract_all _ le_rfl]

/-- The first of two parts is empty. -/
theorem empty_part_answered_whole : ¬ ∀ v n, 1 ≤ n → n ≤ partsCount v → Answered v v n := by
  intro h
  have := (h ⟨[1], some [0, 1], by simp⟩ 1 (by decide) (by decide)).elim id And.right
  exact absurd this (by decide)

end Pgvs3.Parts
