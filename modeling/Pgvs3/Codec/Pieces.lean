import Pgvs3.Codec.Framer
/-!
# Piece planning

Row numbers and offsets are unbounded here. Of `Meta` only the fields that a read of stored files
uses are kept.
-/

namespace Pgvs3.Codec

open List

/-- `store/object.go:91-104`. -/
structure Meta where
  fileID : Int64
  size : Nat
  parts : Option (List Int64)
  partEnds : Option (List Nat)
  /-- The relation that keys the block cache; 0 stands for none. -/
  table : Nat
deriving DecidableEq, Repr

/-- `store/object.go:106-110`. -/
structure Segment where
  fileID : Int64
  base : Nat
  length : Nat
deriving DecidableEq, Repr

/-- The loop of `Segments`. -/
def segmentsFrom : Nat → List (Int64 × Nat) → Except ReadError (List Segment)
  | _, [] => .ok []
  | prev, (id, stop) :: rest =>
    if stop < prev then .error .invalidOffsets
    else do
      let out ← segmentsFrom stop rest
      return ⟨id, prev, stop - prev⟩ :: out

/-- `store/object.go:112-134`. -/
def Meta.segments (m : Meta) : Except ReadError (List Segment) :=
  match m.parts, m.partEnds with
  | none, none => .ok [⟨m.fileID, 0, m.size⟩]
  | some parts, some ends =>
    if parts = [] ∨ parts.length ≠ ends.length ∨ parts.head? ≠ some m.fileID ∨ ends.getLast? ≠ some m.size then
      .error .invalidManifest
    else segmentsFrom 0 (parts.zip ends)
  | _, _ => .error .incompleteManifest

/-- `store/object.go:538-543`. -/
structure Piece where
  fileID : Int64
  base : Nat
  segLen : Nat
  lo : Nat
  hi : Nat
deriving DecidableEq, Repr

def readPieceBytes : Nat := 8 * 2 ^ 20
def minReadPieceBytes : Nat := 2 ^ 20
def oneQueryReadBytes : Nat := 2 ^ 20
def maxParallelPieces : Nat := 8

/-- `seg.Length > 0 && seg.Base+seg.Length-1 >= start && seg.Base <= end`. -/
def Segment.overlaps (s : Segment) (start stop : Nat) : Bool :=
  0 < s.length && start ≤ s.base + s.length - 1 && s.base ≤ stop

def pieceCount (span parallel overlapping rows : Nat) : Nat :=
  let share := max (parallel / overlapping) 1
  if span ≤ oneQueryReadBytes ∨ parallel ≤ 1 then 1
  else if span ≤ maxParallelPieces * readPieceBytes then
    if overlapping = 1 then
      let target := max ((span + parallel - 1) / parallel) minReadPieceBytes
      min rows ((span + target - 1) / target)
    else min rows share
  else min rows (max (rows * rowBytes / readPieceBytes) 1)

/-- `for r := lo; r <= hi; r += step`, with the number of rounds that are left. -/
def stepPieces (s : Segment) (step hi : Nat) : Nat → Nat → List Piece
  | 0, _ => []
  | fuel + 1, r =>
    if r ≤ hi then ⟨s.fileID, s.base, s.length, r, min (r + step - 1) hi⟩ :: stepPieces s step hi fuel (r + step) else []

def Segment.firstRow (s : Segment) (start : Nat) : Nat := (max start s.base - s.base) / rowBytes

def Segment.lastRow (s : Segment) (stop : Nat) : Nat := (min stop (s.base + s.length - 1) - s.base) / rowBytes

def segmentPieces (start stop parallel overlapping : Nat) (s : Segment) : List Piece :=
  let lo := s.firstRow start
  let hi := s.lastRow stop
  let rows := hi - lo + 1
  let count := pieceCount (stop - start + 1) parallel overlapping rows
  let step := (rows + count - 1) / count
  stepPieces s step hi rows lo

/-- `store/object.go:555-597`. -/
def planPieces (m : Meta) (start stop parallel : Nat) : Except ReadError (List Piece) := do
  let segments ← m.segments
  let parallel := max parallel 1
  let overlapping := segments.filter (·.overlaps start stop)
  if overlapping = [] then throw (.outside start stop m.size)
  return overlapping.flatMap (segmentPieces start stop parallel overlapping.length)

/-! ## Pieces that follow each other -/

def Piece.from (p : Piece) : Nat := p.base + p.lo * rowBytes

def Piece.upTo (p : Piece) : Nat := p.base + min p.segLen ((p.hi + 1) * rowBytes)

def Piece.bytes (p : Piece) (object : Bytes) (start stop : Nat) : Bytes := clip object start (stop + 1) p.from p.upTo

/-- Pieces of one segment that follow each other from row `lo` up to row `hi`, each beginning inside
the segment. -/
def Follow (s : Segment) : Nat → Nat → List Piece → Prop
  | lo, hi, [] => lo = hi
  | lo, hi, p :: ps =>
    p.fileID = s.fileID ∧ p.base = s.base ∧ p.segLen = s.length ∧ p.lo = lo ∧ p.lo ≤ p.hi ∧ p.lo * rowBytes < s.length ∧
      Follow s (p.hi + 1) hi ps

structure Piece.In (s : Segment) (p : Piece) : Prop where
  id_eq : p.fileID = s.fileID
  base_eq : p.base = s.base
  length_eq : p.segLen = s.length
  le : p.lo ≤ p.hi
  lt : p.lo * rowBytes < s.length

variable {hi lo fuel r overlapping parallel step : Nat} {s : Segment} {ps : List Piece}

theorem Follow.mem (h : Follow s lo hi ps) : ∀ p ∈ ps, p.In s := by
  induction ps generalizing lo with
  | nil => exact nofun
  | cons q ps ih =>
    obtain ⟨hf, hb, hl, -, hle, hin, hrest⟩ := h
    intro p hp
    rcases mem_cons.1 hp with rfl | hp
    · exact ⟨hf, hb, hl, hle, hin⟩
    · exact ih hrest p hp

theorem Follow.bytes (h : Follow s lo hi ps) (object : Bytes) (start stop : Nat) : ps.flatMap (·.bytes object start stop) =
      clip object start (stop + 1) (s.base + min s.length (lo * rowBytes)) (s.base + min s.length (hi * rowBytes)) ∧ lo ≤ hi := by
  induction ps generalizing lo with
  | nil =>
    obtain rfl : lo = hi := h
    exact ⟨(clip_eq_nil object (by omega)).symm, le_rfl⟩
  | cons p ps ih =>
    obtain ⟨-, hb, hl, rfl, hle, hin, hrest⟩ := h
    obtain ⟨hbytes, hhi⟩ := ih hrest
    refine ⟨?_, by omega⟩
    have hmono : p.lo * rowBytes ≤ (p.hi + 1) * rowBytes := Nat.mul_le_mul_right _ (by omega)
    have hmono' : (p.hi + 1) * rowBytes ≤ hi * rowBytes := Nat.mul_le_mul_right _ hhi
    rw [flatMap_cons, hbytes, Piece.bytes, Piece.from, Piece.upTo, hb, hl, Nat.min_eq_right hin.le]
    exact clip_append object start (stop + 1) (by omega) (by omega)

theorem follow_stepPieces (hs : 0 < step) (hin : hi * rowBytes < s.length)
    (hr : r ≤ hi + 1) (hf : hi + 1 ≤ fuel + r) : Follow s r (hi + 1) (stepPieces s step hi fuel r) := by
  induction fuel generalizing r with
  | zero => exact le_antisymm hr (by omega)
  | succ fuel ih =>
    simp only [stepPieces]
    by_cases hle : r ≤ hi
    · rw [if_pos hle]
      refine ⟨rfl, rfl, rfl, rfl, by simp only; omega, ?_, ?_⟩
      · exact lt_of_le_of_lt (Nat.mul_le_mul_right _ hle) hin
      · -- the last piece is cut at `hi`, and then the loop ends
        by_cases hlast : r + step ≤ hi + 1
        · have hmin : min (r + step - 1) hi + 1 = r + step := by omega
          simp only [hmin]
          exact ih hlast (by omega)
        · have hmin : min (r + step - 1) hi + 1 = hi + 1 := by omega
          simp only [hmin]
          cases fuel with
          | zero => rfl
          | succ fuel =>
            rw [stepPieces, if_neg (by omega)]
            rfl
    · rw [if_neg hle]
      exact le_antisymm hr (by omega)

theorem hi_stepPieces : ∀ p ∈ stepPieces s step hi fuel r, p.hi ≤ hi := by
  induction fuel generalizing r with
  | zero => exact nofun
  | succ fuel ih =>
    intro p hp
    simp only [stepPieces] at hp
    split at hp
    · rcases mem_cons.1 hp with rfl | hp
      · exact Nat.min_le_right _ _
      · exact ih p hp
    · cases hp

theorem pieceCount_pos {span rows : Nat} (hspan : 0 < span) (hr : 0 < rows) : 0 < pieceCount span parallel overlapping rows := by
  unfold pieceCount
  simp only
  split
  · exact Nat.one_pos
  · split
    · split
      · have hpos : 0 < max ((span + parallel - 1) / parallel) minReadPieceBytes := by
          have : minReadPieceBytes = 2 ^ 20 := rfl
          omega
        have : 0 < (span + max ((span + parallel - 1) / parallel) minReadPieceBytes - 1) /
            max ((span + parallel - 1) / parallel) minReadPieceBytes := Nat.div_pos (by omega) hpos
        omega
      · omega
    · omega

section Plan

variable {s : Segment} {start stop : Nat}

theorem Segment.overlaps_iff : s.overlaps start stop = true ↔ 0 < s.length ∧ start ≤ s.base + s.length - 1 ∧ s.base ≤ stop := by
  simp only [Segment.overlaps, Bool.and_eq_true, decide_eq_true_eq]
  tauto

theorem rows_of_overlaps (h : s.overlaps start stop = true) (hle : start ≤ stop) :
    s.firstRow start ≤ s.lastRow stop ∧ s.lastRow stop * rowBytes < s.length := by
  obtain ⟨hpos, hstart, hstop⟩ := Segment.overlaps_iff.1 h
  refine ⟨Nat.div_le_div_right (by omega), ?_⟩
  exact lt_of_le_of_lt (Nat.div_mul_le_self _ _) (by omega)

theorem follow_segmentPieces (parallel overlapping : Nat) (h : s.overlaps start stop = true) (hle : start ≤ stop) :
    Follow s (s.firstRow start) (s.lastRow stop + 1) (segmentPieces start stop parallel overlapping s) := by
  obtain ⟨hrows, hin⟩ := rows_of_overlaps h hle
  simp only [segmentPieces]
  have hcount : 0 < pieceCount (stop - start + 1) parallel overlapping (s.lastRow stop - s.firstRow start + 1) :=
    pieceCount_pos (by omega) (by omega)
  exact follow_stepPieces (Nat.div_pos (by omega) hcount) hin (by omega) (by omega)

theorem hi_segmentPieces (h : s.overlaps start stop = true) (hle : start ≤ stop) :
    ∀ p ∈ segmentPieces start stop parallel overlapping s, p.hi * rowBytes < s.length := fun p hp =>
  lt_of_le_of_lt (Nat.mul_le_mul_right _ (hi_stepPieces p hp)) (rows_of_overlaps h hle).2

/-- The rows of a segment that the span needs have all that the span wants of the segment. -/
theorem clip_rows (h : s.overlaps start stop = true) (object : Bytes) (hlo : lo ≤ s.firstRow start) (hhi : s.lastRow stop + 1 ≤ hi) :
    clip object start (stop + 1) (s.base + min s.length (lo * rowBytes)) (s.base + min s.length (hi * rowBytes)) =
      clip object start (stop + 1) s.base (s.base + s.length) := by
  obtain ⟨hpos, hstart, hstop⟩ := Segment.overlaps_iff.1 h
  have h1 : lo * rowBytes ≤ max start s.base - s.base :=
    (Nat.mul_le_mul_right _ hlo).trans (Nat.div_mul_le_self _ _)
  have h2 : min stop (s.base + s.length - 1) - s.base < hi * rowBytes :=
    (Nat.div_lt_iff_lt_mul (by decide)).1 (Nat.lt_of_succ_le hhi)
  exact clip_congr object (by omega) (by omega)

theorem clip_of_not_overlaps (h : s.overlaps start stop = false) (object : Bytes) :
    clip object start (stop + 1) s.base (s.base + s.length) = [] := by
  have hn : ¬ (0 < s.length ∧ start ≤ s.base + s.length - 1 ∧ s.base ≤ stop) := by
    rw [← Segment.overlaps_iff, h]
    simp
  exact clip_eq_nil object (by omega)

theorem bytes_segmentPieces (parallel overlapping : Nat) (h : s.overlaps start stop = true) (hle : start ≤ stop) (object : Bytes) :
    (segmentPieces start stop parallel overlapping s).flatMap (·.bytes object start stop) =
      clip object start (stop + 1) s.base (s.base + s.length) := by
  rw [((follow_segmentPieces parallel overlapping h hle).bytes object start stop).1]
  exact clip_rows h object (le_rfl) (le_rfl)

end Plan

/-! ## Objects and their files -/

section Objects

variable (content : Int64 → Bytes)

/-- The segments of files that follow each other from `prev` on. -/
def segmentsOf : Nat → List Int64 → List Segment
  | _, [] => []
  | prev, id :: ids => ⟨id, prev, (content id).length⟩ :: segmentsOf (prev + (content id).length) ids

def endsOf : Nat → List Int64 → List Nat
  | _, [] => []
  | prev, id :: ids => (prev + (content id).length) :: endsOf (prev + (content id).length) ids

/-- The metadata of an object that is one file, or the files `ids` one after the other. -/
def Meta.Describes (m : Meta) (ids : List Int64) : Prop :=
  m.size = (ids.flatMap content).length ∧ ids.head? = some m.fileID ∧
    ((m.parts = none ∧ m.partEnds = none ∧ ids.length = 1) ∨ (m.parts = some ids ∧ m.partEnds = some (endsOf content 0 ids)))

variable {content} {ids : List Int64} {m : Meta} {stop start : Nat}

theorem segmentsFrom_zip (prev : Nat) (ids : List Int64) :
    segmentsFrom prev (ids.zip (endsOf content prev ids)) = .ok (segmentsOf content prev ids) := by
  induction ids generalizing prev with
  | nil => rfl
  | cons id ids ih =>
    simp only [endsOf, zip_cons_cons, segmentsFrom, segmentsOf, ih]
    rw [if_neg (by omega), Nat.add_sub_cancel_left]
    rfl

theorem length_endsOf (prev : Nat) (ids : List Int64) : (endsOf content prev ids).length = ids.length := by
  induction ids generalizing prev with
  | nil => rfl
  | cons id ids ih => simp [endsOf, ih]

theorem getLast?_endsOf (content : Int64 → Bytes) (prev : Nat) (h : ids ≠ []) :
    (endsOf content prev ids).getLast? = some (prev + (ids.flatMap content).length) := by
  induction ids generalizing prev with
  | nil => exact absurd rfl h
  | cons id ids ih =>
    cases hids : ids with
    | nil => simp [endsOf]
    | cons id' ids' =>
      have hlast := ih (prev + (content id).length) (by simp [hids])
      rw [hids, endsOf] at hlast
      rw [endsOf, endsOf, getLast?_cons_cons, hlast]
      simp only [flatMap_cons, length_append, Nat.add_assoc]

theorem Meta.Describes.segments (h : m.Describes content ids) : m.segments = .ok (segmentsOf content 0 ids) := by
  obtain ⟨hsize, hhead, h⟩ := h
  have hne : ids ≠ [] := by
    rintro rfl
    cases hhead
  rcases h with ⟨hp, he, hone⟩ | ⟨hp, he⟩
  · obtain ⟨id, rfl⟩ := length_eq_one_iff.1 hone
    cases hhead
    simp only [Meta.segments, hp, he, segmentsOf, hsize]
    simp
  · simp only [Meta.segments, hp, he]
    have hlast := getLast?_endsOf content 0 hne
    rw [Nat.zero_add, ← hsize] at hlast
    rw [if_neg (by simp [hne, length_endsOf, hhead, hlast]), segmentsFrom_zip]

structure Segment.Holds (content : Int64 → Bytes) (object : Bytes) (s : Segment) : Prop where
  length : s.length = (content s.fileID).length
  bytes : object.extract s.base (s.base + s.length) = content s.fileID

theorem holds_segmentsOf (before : Bytes) (ids : List Int64) :
    ∀ s ∈ segmentsOf content before.length ids, s.Holds content (before ++ ids.flatMap content) := by
  induction ids generalizing before with
  | nil => exact nofun
  | cons id ids ih =>
    intro s hs
    rcases mem_cons.1 hs with rfl | hs
    · refine ⟨rfl, ?_⟩
      rw [extract_append_right _ (le_rfl), Nat.sub_self, Nat.add_sub_cancel_left, flatMap_cons,
        extract_append_left _ (le_rfl), extract_all _ (le_rfl)]
    · have hmem := ih (before ++ content id) s (by rwa [length_append])
      rwa [append_assoc] at hmem

theorem clip_segmentsOf (object : Bytes) (start stop prev : Nat) (ids : List Int64) :
    (segmentsOf content prev ids).flatMap (fun s => clip object start stop s.base (s.base + s.length)) =
      clip object start stop prev (prev + (ids.flatMap content).length) := by
  induction ids generalizing prev with
  | nil => exact (clip_eq_nil object (by simp)).symm
  | cons id ids ih =>
    rw [segmentsOf, flatMap_cons, ih, flatMap_cons, length_append, ← Nat.add_assoc]
    exact clip_append object start stop (Nat.le_add_right _ _) (Nat.le_add_right _ _)

theorem flatMap_filter_overlaps (object : Bytes) (start stop : Nat) (segs : List Segment) :
    (segs.filter (·.overlaps start stop)).flatMap (fun s => clip object start (stop + 1) s.base (s.base + s.length)) =
      segs.flatMap (fun s => clip object start (stop + 1) s.base (s.base + s.length)) := by
  induction segs with
  | nil => rfl
  | cons s segs ih =>
    cases ho : s.overlaps start stop with
    | true => simp only [filter_cons, ho, if_true, flatMap_cons, ih]
    | false =>
      simp only [filter_cons, ho, Bool.false_eq_true, if_false, flatMap_cons, clip_of_not_overlaps ho, nil_append, ih]

theorem clip_overlapping (start : Nat) (hstop : stop < (ids.flatMap content).length) :
    ((segmentsOf content 0 ids).filter (·.overlaps start stop)).flatMap
      (fun s => clip (ids.flatMap content) start (stop + 1) s.base (s.base + s.length)) =
        (ids.flatMap content).extract start (stop + 1) := by
  rw [flatMap_filter_overlaps, clip_segmentsOf, Nat.zero_add, clip, Nat.max_eq_left (Nat.zero_le _), Nat.min_eq_left hstop]

theorem overlapping_ne_nil {content : Int64 → Bytes} (hle : start ≤ stop) (hstop : stop < (ids.flatMap content).length) :
    (segmentsOf content 0 ids).filter (·.overlaps start stop) ≠ [] := by
  intro hnil
  have hbytes := clip_overlapping start hstop
  rw [hnil, flatMap_nil] at hbytes
  have hlen := length_extract (ids.flatMap content) (a := start) (b := stop + 1)
  rw [← hbytes, length_nil] at hlen
  omega

def touched (content : Int64 → Bytes) (ids : List Int64) (start stop : Nat) : List Segment :=
  (segmentsOf content 0 ids).filter (·.overlaps start stop)

theorem planPieces_eq (h : m.Describes content ids) (hle : start ≤ stop)
    (hstop : stop < m.size) (parallel : Nat) : planPieces m start stop parallel = .ok ((touched content ids start stop).flatMap
      (segmentPieces start stop (max parallel 1) (touched content ids start stop).length)) := by
  have hne : (segmentsOf content 0 ids).filter (·.overlaps start stop) ≠ [] := overlapping_ne_nil hle (h.1 ▸ hstop)
  simp only [planPieces, h.segments, touched]
  show (if _ then _ else _) = _
  rw [if_neg hne]
  rfl

/-- Cut to a span, the planned pieces make up the span. -/
theorem bytes_planned {content : Int64 → Bytes} (hle : start ≤ stop) (hstop : stop < (ids.flatMap content).length)
    (parallel overlapping : Nat) :
    ((touched content ids start stop).flatMap (segmentPieces start stop parallel overlapping)).flatMap
      (·.bytes (ids.flatMap content) start stop) = (ids.flatMap content).extract start (stop + 1) := by
  rw [← clip_overlapping start hstop, flatMap_assoc]
  exact flatMap_congr fun s hs => bytes_segmentPieces parallel overlapping (mem_filter.1 hs).2 hle _

end Objects

end Pgvs3.Codec
