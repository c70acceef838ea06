import Pgvs3.Codec.Pieces
/-!
# Piece planning in machine integers

`planPieces` (`store/object.go:555-597`) counts bytes in `int64` and rows in `int32`. `conv w` says
what becomes of a result of `w` bits: Go keeps the low bits (`wrapped`), `checked` stops where that
changes the value. The loop goes on to the row after its last piece, which need not be an `int32`
(`full_file_never_planned`).
-/

namespace Pgvs3.Codec

open List

def wrapped (w : Nat) (x : Int) : Option Int := some (x.bmod (2 ^ w))

def checked (w : Nat) (x : Int) : Option Int := if x.bmod (2 ^ w) = x then some x else none

section Ints

variable (conv : Nat → Int → Option Int)

def countInts (span parallel overlapping rows : Int) : Option Int :=
  if span ≤ oneQueryReadBytes ∨ parallel ≤ 1 then some 1
  else if span ≤ maxParallelPieces * readPieceBytes then
    if overlapping = 1 then do
      let sum ← conv 64 (span + parallel)
      let sum ← conv 64 (sum - 1)
      let target := max (sum.tdiv parallel) minReadPieceBytes
      let sum ← conv 64 (span + target)
      let sum ← conv 64 (sum - 1)
      return min rows (sum.tdiv target)
    else some (min rows (max (parallel.tdiv overlapping) 1))
  else do
    let bytes ← conv 64 (rows * rowBytes)
    return min rows (max (bytes.tdiv readPieceBytes) 1)

/-- `for r := lo; r <= hi; r += step`; none when the fuel runs out. -/
def loopInts (step hi : Int) : Nat → Int → Option (List (Int × Int))
  | 0, _ => none
  | fuel + 1, r =>
    if r ≤ hi then do
      let next ← conv 32 (r + step)
      let last ← conv 32 (next - 1)
      let rest ← loopInts step hi fuel next
      return (r, min last hi) :: rest
    else some []

def stepInts (fuel : Nat) (lo hi rows count : Int) : Option (List (Int × Int)) := do
  let sum ← conv 64 (rows + count)
  let sum ← conv 64 (sum - 1)
  let step ← conv 32 (sum.tdiv count)
  loopInts conv step hi fuel lo

def segmentInts (fuel : Nat) (start stop parallel overlapping : Int) (s : Segment) : Option (List (Int × Int)) := do
  let span ← conv 64 (stop - start)
  let span ← conv 64 (span + 1)
  let skipped ← conv 64 (max start s.base - s.base)
  let past ← conv 64 (s.base + s.length)
  let last ← conv 64 (past - 1)
  let wanted ← conv 64 (min stop last - s.base)
  let lo ← conv 32 (skipped.tdiv rowBytes)
  let hi ← conv 32 (wanted.tdiv rowBytes)
  let rows ← conv 32 (hi - lo)
  let rows ← conv 64 (rows + 1)
  let count ← countInts conv span (max parallel 1) overlapping rows
  stepInts conv fuel lo hi rows count

end Ints

def overlapping (segments : List Segment) (start stop : Nat) : List Segment := segments.filter (·.overlaps start stop)

/-- What the shapes of the tables admit. -/
structure Admitted (m : Meta) (segments : List Segment) : Prop where
  segments_eq : m.segments = .ok segments
  size : m.size < 2 ^ 63
  rows : ∀ s ∈ segments, s.length ≤ 2 ^ 31 * rowBytes ∧ s.base + s.length < 2 ^ 63

/-- For every segment of the span the loop ends, no result changes, and the pieces follow each other
through the rows. -/
def Planned (segments : List Segment) (start stop : Nat) (parallel : Int) : Prop :=
  ∀ s ∈ overlapping segments start stop, ∃ fuel ps, Follow s (s.firstRow start) (s.lastRow stop + 1) ps ∧ ∀ conv ∈ [wrapped, checked],
    segmentInts conv fuel start stop parallel (overlapping segments start stop).length s = some (ps.map fun p => (↑p.lo, ↑p.hi))

def Segment.rows (s : Segment) (start stop : Nat) : Nat := s.lastRow stop - s.firstRow start + 1

def Segment.step (s : Segment) (start stop parallel overlapping : Nat) : Nat :=
  let count := pieceCount (stop - start + 1) parallel overlapping (s.rows start stop)
  (s.rows start stop + count - 1) / count

def pastRow (step hi r : Nat) : Nat := r + ((hi - r) / step + 1) * step

/-- The span is shared out among readers that are too many to be added to it. -/
def Crowded (span parallel overlapping : Nat) : Prop :=
  oneQueryReadBytes < span ∧ span ≤ maxParallelPieces * readPieceBytes ∧ overlapping = 1 ∧ 2 ^ 63 ≤ span + parallel

/-- The readers can be counted, and every loop ends at an `int32`. -/
def Room (segments : List Segment) (start stop parallel : Nat) : Prop :=
  ∀ s ∈ overlapping segments start stop, ¬ Crowded (stop - start + 1) parallel (overlapping segments start stop).length ∧
    pastRow (s.step start stop parallel (overlapping segments start stop).length) (s.lastRow stop) (s.firstRow start) < 2 ^ 31

/-! ## Results that are kept -/

def Keeps (conv : Nat → Int → Option Int) : Prop := ∀ w x, x.bmod (2 ^ w) = x → conv w x = some x

theorem keeps_checked : Keeps checked := fun _ _ h => if_pos h

variable {conv : Nat → Int → Option Int} {s : Segment}
    {step hi r fuel start stop parallel k span rows w n : Nat} {x : Int} {β : Type}
    {f : Int → Option β}

theorem Keeps.nat (h : Keeps conv) (hx : x = n ∧ 2 * n < 2 ^ w) : conv w x >>= f = f n := by
  obtain ⟨rfl, hn⟩ := hx
  rw [h w n]
  · rfl
  · generalize 2 ^ w = m at hn ⊢
    exact Int.bmod_eq_of_le (by omega) (by omega)

theorem checked_large (hx : x = n) (hn : 2 ^ w ≤ 2 * n) : checked w x >>= f = none := by
  subst hx
  rw [checked, if_neg fun heq => ?_]
  · rfl
  · have hlt := Int.bmod_lt (x := (n : Int)) (m := 2 ^ w) (by positivity)
    generalize 2 ^ w = m at hn hlt heq
    omega

/-! ## The loop -/

theorem le_pastRow (step hi r : Nat) : r + step ≤ pastRow step hi r := by
  rw [pastRow, Nat.add_mul, Nat.one_mul]
  omega

theorem pastRow_eq (hs : 0 < step) (hle : r ≤ hi) :
    pastRow step hi r = if r + step ≤ hi then pastRow step hi (r + step) else r + step := by
  unfold pastRow
  split
  · rw [Nat.div_eq_sub_div hs (by omega), Nat.sub_sub, Nat.add_assoc r step, Nat.add_mul _ 1, Nat.one_mul, Nat.add_comm step]
  · rw [Nat.div_eq_of_lt (by omega), Nat.zero_add, Nat.one_mul]

theorem loopInts_eq (h : Keeps conv) (hs : 0 < step) (hroom : r ≤ hi → pastRow step hi r < 2 ^ 31) (hf : hi + 1 ≤ fuel + r) :
    loopInts conv step hi (fuel + 1) r = some ((stepPieces s step hi fuel r).map fun p => (↑p.lo, ↑p.hi)) := by
  induction fuel generalizing r with
  | zero =>
    rw [loopInts, if_neg (by omega)]
    rfl
  | succ fuel ih =>
    by_cases hle : r ≤ hi
    · have hpast := hroom hle
      have hnext := le_pastRow step hi r
      rw [pastRow_eq hs hle] at hpast
      rw [loopInts, if_pos (by omega), h.nat (n := r + step) (by omega), h.nat (n := r + step - 1) (by omega),
        ih (fun hle => by rwa [if_pos hle] at hpast) (by omega), stepPieces, if_pos hle]
      simp
    · rw [loopInts, if_neg (by omega), stepPieces, if_neg hle]
      rfl

theorem room_of_loopInts {ps : List (Int × Int)} (hs : 0 < step) (hle : r ≤ hi) (h : loopInts checked step hi fuel r = some ps) :
    pastRow step hi r < 2 ^ 31 := by
  induction fuel generalizing r ps with
  | zero => cases h
  | succ fuel ih =>
    rw [loopInts, if_pos (by omega)] at h
    rw [pastRow_eq hs hle]
    by_cases hnext : r + step < 2 ^ 31
    · rw [keeps_checked.nat (n := r + step) (by omega), keeps_checked.nat (n := r + step - 1) (by omega)] at h
      obtain ⟨ps', hps, -⟩ := Option.bind_eq_some_iff.1 h
      split
      · next hle => exact ih hle hps
      · exact hnext
    · rw [checked_large (n := r + step) (by omega) (by omega)] at h
      cases h

/-! ## The plan -/

theorem countInts_eq (h : Keeps conv) (hrows : rows ≤ 2 ^ 31) (hroom : ¬ Crowded span parallel k) :
    countInts conv span parallel k rows = some ↑(pieceCount span parallel k rows) := by
  have hmin : minReadPieceBytes = 2 ^ 20 := rfl
  have hmax : maxParallelPieces * readPieceBytes = 2 ^ 26 := rfl
  unfold countInts pieceCount
  unfold Crowded at hroom
  by_cases hone : span ≤ oneQueryReadBytes ∨ parallel ≤ 1
  · rw [if_pos (by omega), if_pos hone]
    rfl
  rw [if_neg (by omega), if_neg hone]
  by_cases hmid : span ≤ maxParallelPieces * readPieceBytes
  · rw [if_pos (by exact_mod_cast hmid), if_pos hmid]
    by_cases hsingle : k = 1
    · have htarget : (span + parallel - 1) / parallel ≤ (span + parallel - 1) / 2 := Nat.div_le_div_left (by omega) (by decide)
      rw [if_pos (by omega), if_pos hsingle, h.nat (n := span + parallel) (by omega), h.nat (n := span + parallel - 1) (by omega),
        h.nat (n := span + max ((span + parallel - 1) / parallel) minReadPieceBytes) ⟨by push_cast; rfl, by omega⟩,
        h.nat (n := span + max ((span + parallel - 1) / parallel) minReadPieceBytes - 1) (by omega)]
      simp
    · rw [if_neg (by omega), if_neg hsingle]
      simp
  · rw [if_neg (by exact_mod_cast hmid), if_neg hmid, h.nat (n := rows * rowBytes) ⟨by push_cast; rfl, by simp [rowBytes]; omega⟩,
      ← Int.ofNat_tdiv]
    simp

theorem countInts_crowded (h : Crowded span parallel k) : countInts checked span parallel k x = none := by
  obtain ⟨hone, hmid, hsingle, hsum⟩ := h
  have : maxParallelPieces * readPieceBytes = 2 ^ 26 := rfl
  rw [countInts, if_neg (by omega), if_pos (by exact_mod_cast hmid), if_pos (by omega),
    checked_large (n := span + parallel) (by omega) (by omega)]

theorem pieceCount_le (hrows : 0 < rows) : pieceCount span parallel k rows ≤ rows := by
  unfold pieceCount
  dsimp only
  split_ifs <;> omega

theorem step_pos (start stop parallel k : Nat) : 0 < s.step start stop parallel k :=
  Nat.div_pos (by unfold Segment.rows; omega) (pieceCount_pos (Nat.succ_pos _) (Nat.succ_pos _))

section

variable (h : Keeps conv) (hs : s.overlaps start stop = true) (hle : start ≤ stop) (hstop : stop + 1 < 2 ^ 63)
  (hrows : s.length ≤ 2 ^ 31 * rowBytes ∧ s.base + s.length < 2 ^ 63) {p : Int} (hp : max p 1 = parallel)

include hs hle hrows in
theorem lastRow_lt : s.firstRow start ≤ s.lastRow stop ∧ s.lastRow stop < 2 ^ 31 :=
  ⟨(rows_of_overlaps hs hle).1, Nat.lt_of_mul_lt_mul_right (Nat.lt_of_lt_of_le (rows_of_overlaps hs hle).2 hrows.1)⟩

include h hs hle hstop hrows hp in
theorem segmentInts_count : segmentInts conv fuel start stop p k s = countInts conv ↑(stop - start + 1) parallel k (s.rows start stop) >>=
    stepInts conv fuel (s.firstRow start) (s.lastRow stop) (s.rows start stop) := by
  obtain ⟨hpos, hstart, hbase⟩ := Segment.overlaps_iff.1 hs
  obtain ⟨hfirst, hlast⟩ := lastRow_lt hs hle hrows
  rw [segmentInts, h.nat (n := stop - start) (by omega), h.nat (n := stop - start + 1) (by omega),
    h.nat (n := max start s.base - s.base) (by omega), h.nat (n := s.base + s.length) (by omega),
    h.nat (n := s.base + s.length - 1) (by omega), h.nat (n := min stop (s.base + s.length - 1) - s.base) (by omega),
    h.nat (n := s.firstRow start) ⟨by rfl, by omega⟩, h.nat (n := s.lastRow stop) ⟨by rfl, by omega⟩,
    h.nat (n := s.lastRow stop - s.firstRow start) (by omega), h.nat (n := s.rows start stop) ⟨by rfl, by unfold Segment.rows; omega⟩, hp]

include h hs hle hstop hrows hp in
theorem segmentInts_eq (hroom : ¬ Crowded (stop - start + 1) parallel k) : segmentInts conv fuel start stop p k s =
    conv 32 (s.step start stop parallel k) >>= fun step => loopInts conv step (s.lastRow stop) fuel (s.firstRow start) := by
  obtain ⟨hfirst, hlast⟩ := lastRow_lt hs hle hrows
  have hr : s.rows start stop = s.lastRow stop - s.firstRow start + 1 := rfl
  have hcount : pieceCount (stop - start + 1) parallel k (s.rows start stop) ≤ s.rows start stop := pieceCount_le (Nat.succ_pos _)
  rw [segmentInts_count h hs hle hstop hrows hp, countInts_eq h (by omega) hroom]
  show stepInts conv fuel _ _ _ _ = _
  rw [stepInts,
    h.nat (n := s.rows start stop + pieceCount (stop - start + 1) parallel k (s.rows start stop))
      ⟨by push_cast; rfl, by omega⟩,
    h.nat (n := s.rows start stop + pieceCount (stop - start + 1) parallel k (s.rows start stop) - 1)
      (by omega)]
  rfl

include hs hle hstop hrows hp in
theorem segment_iff : (∃ fuel ps, Follow s (s.firstRow start) (s.lastRow stop + 1) ps ∧ ∀ conv ∈ [wrapped, checked],
      segmentInts conv fuel start stop p k s = some (ps.map fun q => (↑q.lo, ↑q.hi))) ↔
    ¬ Crowded (stop - start + 1) parallel k ∧ pastRow (s.step start stop parallel k) (s.lastRow stop) (s.firstRow start) < 2 ^ 31 := by
  obtain ⟨hfirst, hlast⟩ := lastRow_lt hs hle hrows
  constructor
  · rintro ⟨fuel, ps, -, hall⟩
    have hps := hall checked (by simp)
    have hroom : ¬ Crowded (stop - start + 1) parallel k := fun hroom => by
      rw [segmentInts_count keeps_checked hs hle hstop hrows hp, countInts_crowded hroom] at hps
      cases hps
    rw [segmentInts_eq keeps_checked hs hle hstop hrows hp hroom] at hps
    refine ⟨hroom, ?_⟩
    by_cases hstep : s.step start stop parallel k < 2 ^ 31
    · rw [keeps_checked.nat ⟨rfl, by omega⟩] at hps
      exact room_of_loopInts (step_pos ..) hfirst hps
    · rw [checked_large rfl (by omega)] at hps
      cases hps
  · rintro ⟨hroom, hpast⟩
    have hstep := le_pastRow (s.step start stop parallel k) (s.lastRow stop) (s.firstRow start)
    refine ⟨2 ^ 31 + 1, stepPieces s (s.step start stop parallel k) _ (2 ^ 31) _,
      follow_stepPieces (step_pos ..) (rows_of_overlaps hs hle).2 (by omega) (by omega), fun conv hc => ?_⟩
    have hkeeps : Keeps conv := by
      rcases mem_pair.1 hc with rfl | rfl
      · exact fun _ _ h => congrArg some h
      · exact keeps_checked
    rw [segmentInts_eq hkeeps hs hle hstop hrows hp hroom, hkeeps.nat ⟨rfl, by omega⟩,
      loopInts_eq hkeeps (step_pos ..) (fun _ => hpast) (by omega)]

end

/-- Piece planning is right in machine integers exactly if there is room. -/
theorem planned_iff {m : Meta} {segs : List Segment} (h : Admitted m segs) {start stop : Nat} (hle : start ≤ stop) (hstop : stop < m.size)
    {parallel : Int} : Planned segs start stop parallel ↔ Room segs start stop (max parallel 1).toNat :=
  forall₂_congr fun s hs => segment_iff (mem_filter.1 hs).2 hle (Nat.lt_of_le_of_lt hstop h.size) (h.rows s (mem_filter.1 hs).1)
    (Int.toNat_of_nonneg (by omega)).symm

/-- A span over two files, in several pieces each. -/
theorem two_files_planned : Planned [⟨1, 0, 3000 * rowBytes⟩, ⟨2, 3000 * rowBytes, 2000 * rowBytes + 1⟩] 5 (5000 * rowBytes) 8 :=
  (planned_iff
    (m := ⟨1, 5000 * rowBytes + 1, some [1, 2], some [3000 * rowBytes, 5000 * rowBytes + 1], 0⟩) ⟨rfl, by decide, by decide⟩ (by decide) (by decide)).2
    (by unfold Room Crowded; decide)

/-- A file of `2 ^ 31` rows that is read in one piece: the step is `-2 ^ 31`, and the loop goes back
and forth. -/
theorem full_file_never_planned : ¬ ∀ (m : Meta) (segs : List Segment), Admitted m segs → ∀ (start stop : Nat) (parallel : Int),
    start ≤ stop → stop < m.size → parallel < 2 ^ 63 → Planned segs start stop parallel := by
  intro hclaim
  obtain ⟨fuel, ps, -, hps⟩ := hclaim ⟨1, 2 ^ 31 * rowBytes, none, none, 0⟩ _ ⟨rfl, by decide, by simp [rowBytes]⟩ 0
    (2 ^ 31 * rowBytes - 1) 1 (Nat.zero_le _) (by decide) (by decide) ⟨1, 0, 2 ^ 31 * rowBytes⟩ mem_cons_self
  have hloop : ∀ fuel, loopInts wrapped (-2147483648) 2147483647 fuel 0 = none ∧
      loopInts wrapped (-2147483648) 2147483647 fuel (-2147483648) = none := by
    intro fuel
    induction fuel with
    | zero => exact ⟨rfl, rfl⟩
    | succ fuel ih => simp [loopInts, wrapped, Int.bmod, ih]
  cases (hloop fuel).1.symm.trans (hps wrapped mem_cons_self)

end Pgvs3.Codec
