import Pgvs3.Codec.BlockCache
/-!
# Reading the rows of a piece

The database returns the rows of a piece in any order; rows that come early wait in `early`.
-/

namespace Pgvs3.Codec

open List

def chunkSize : Nat := 256 * 1024

abbrev RawRow := Nat × Bytes

/-- `store/object.go:1272-1283`. -/
structure RowReader where
  piece : Piece
  spanStart : Nat
  spanEnd : Nat
  nextNo : Nat
  /-- Rows that have come before their turn. -/
  early : Nat → Option Bytes
  /-- A block that is to be handed out next. -/
  pending : Option Bytes
  fill : Option BlockFill
  /-- What the query has not yet returned. -/
  rows : List RawRow

/-- `store/object.go:1285-1291`. -/
def newChunkRowReader (rows : List RawRow) (p : Piece) (start stop : Nat) (fill : Option BlockFill) : RowReader :=
  ⟨p, start, stop, p.lo, fun _ => none, none, fill, rows⟩

namespace RowReader

variable (z : Zstd)

def take (r : RowReader) (data : Bytes) : Except ReadError (Option RawRow × RowReader) := do
  let row ← decodeRow z r.piece.segLen r.nextNo data
  return (some (r.nextNo, row), { r with nextNo := r.nextNo + 1 })

/-- The loop of `next` over the rows of the query. An empty copy of a row would be nil, that is,
absent. -/
def scan (r : RowReader) : List RawRow → (Nat → Option Bytes) → Except ReadError (Option RawRow × RowReader)
  | [], early =>
    if r.nextNo ≤ r.piece.hi then .error (.rowMissing r.piece.fileID r.piece.lo r.piece.hi r.nextNo)
    else .ok (none, { r with rows := [], early := early })
  | (no, data) :: rest, early =>
    if no < r.nextNo ∨ r.piece.hi < no then scan r rest early
    else if r.nextNo < no then
      scan r rest fun k => if k = no then (if data = [] then none else some data) else early k
    else take z { r with rows := rest, early := early } data

/-- `store/object.go:1305-1347`. -/
def next (r : RowReader) : Except ReadError (Option RawRow × RowReader) :=
  match r.early r.nextNo with
  | some data => take z { r with early := fun k => if k = r.nextNo then none else r.early k } data
  | none => scan z r r.rows r.early

def appendRow (r : RowReader) (out : Bytes) (no : Nat) (data : Bytes) : Bytes :=
  let rowStart := r.piece.base + no * rowBytes
  let lo : Int := max r.spanStart rowStart - rowStart
  let hi : Int := min (r.spanEnd : Int) (rowStart + data.length - 1) - rowStart
  if lo ≤ hi then out ++ data.extract lo.toNat (hi + 1).toNat else out

/-- A row for the block that is being assembled, if any (`store/object.go:1131-1138`). -/
def addRow (r : RowReader) (contains : Nat → Bool) (no : Nat) (data : Bytes) : (Option Bytes × Bool) × RowReader :=
  match r.fill with
  | none => ((none, false), r)
  | some f =>
    let (res, f) := f.add contains no data
    (res, { r with fill := some f })

/-- The loop of `nextChunk`, with the number of rows that are left. -/
def chunkLoop (contains : Nat → Bool) : Nat → RowReader → Bytes → Except ReadError (Option Bytes × RowReader)
  | 0, r, out => .ok (if 0 < out.length then some out else none, r)
  | fuel + 1, r, out => do
    match ← next z r with
    | (none, r) => return (if 0 < out.length then some out else none, r)
    | (some (no, data), r) =>
      match r.addRow contains no data with
      | ((some block, true), r) =>
        let clipped := clipBlock r.piece.base (no / blockRows) block r.spanStart r.spanEnd
        if 0 < clipped.length then
          if 0 < out.length then return (some out, { r with pending := some clipped })
          else return (some clipped, r)
        else chunkLoop contains fuel r out
      | ((none, true), r) => chunkLoop contains fuel r out
      | ((_, false), r) =>
        let out := r.appendRow out no data
        if chunkSize ≤ out.length then return (some out, r) else chunkLoop contains fuel r out

/-- `store/object.go:1352-1398`. -/
def nextChunk (contains : Nat → Bool) (r : RowReader) : Except ReadError (Option Bytes × RowReader) :=
  match r.pending with
  | some p => .ok (some p, { r with pending := none })
  | none => chunkLoop z contains (r.piece.hi + 2 - r.nextNo) r []

end RowReader

/-- What a worker sends for a piece: its chunks, and the error that ends them, if any
(`store/object.go:599-603`). -/
structure Streamed where
  chunks : List Bytes
  error : Option ReadError
  /-- The blocks it has put into the cache. -/
  puts : List (Nat × Bytes)

/-- `nextChunk` until the end, with the number of calls that are left. -/
def streamChunks (z : Zstd) (contains : Nat → Bool) : Nat → RowReader → Streamed
  | 0, r => ⟨[], none, (r.fill.map (·.puts)).getD []⟩
  | fuel + 1, r =>
    match r.nextChunk z contains with
    | .error e => ⟨[], some e, (r.fill.map (·.puts)).getD []⟩
    | .ok (none, r) => ⟨[], none, (r.fill.map (·.puts)).getD []⟩
    | .ok (some b, r) =>
      let rest := streamChunks z contains fuel r
      { rest with chunks := b :: rest.chunks }

/-- `streamRows`: each call takes a row or hands out a pending block, so that twice the rows are
enough (`store/object.go:1107-1129`). -/
def streamRows (z : Zstd) (contains : Nat → Bool) (enabled : Bool) (p : Piece) (start stop : Nat) (rows : List RawRow) : Streamed :=
  streamChunks z contains (2 * (p.hi + 2 - p.lo) + 2) (newChunkRowReader rows p start stop (fill enabled p))

variable {c object : Bytes} {r : RowReader} {z : Zstd}

/-! ## Rows in order -/

theorem decodeRow_stored (z : Zstd) {i : Nat} (h : i * rowBytes < c.length) :
    decodeRow z c.length i (compressBlock z (rowOf c i)) = .ok (rowOf c i) := by
  have hlen := length_rowOf c i
  have hwant : min (rowBytes : Int) (c.length - i * rowBytes) = ((rowOf c i).length : Int) := by
    rw [hlen]
    omega
  simp only [decodeRow, hwant, Int.toNat_natCast]
  rw [if_neg (by omega), decompressBlock_compressBlock]

/-- From row `nextNo` on, the rows of the piece that exist have come early or are still to come, and
nothing else comes. -/
structure Feed (z : Zstd) (c : Bytes) (p : Piece) (nextNo : Nat) (rows : List RawRow) (early : Nat → Option Bytes) : Prop where
  queried : ∀ no d, (no, d) ∈ rows → d = compressBlock z (rowOf c no) ∧ no * rowBytes < c.length
  waiting : ∀ no d, early no = some d → d = compressBlock z (rowOf c no) ∧ no * rowBytes < c.length ∧ no ≤ p.hi
  reach : ∀ no, nextNo ≤ no → no ≤ p.hi → no * rowBytes < c.length → early no ≠ none ∨ ∃ d, (no, d) ∈ rows

namespace RowReader

variable {z : Zstd} {c : Bytes} {rows : List RawRow}

structure Fed (z : Zstd) (c : Bytes) (r : RowReader) : Prop where
  segLen : r.piece.segLen = c.length
  feed : Feed z c r.piece r.nextNo r.rows r.early

/-- The same reader, some rows further on in the query. -/
def Later (r r' : RowReader) : Prop :=
  r'.piece = r.piece ∧ r'.spanStart = r.spanStart ∧ r'.spanEnd = r.spanEnd ∧ r'.pending = r.pending ∧ r'.fill = r.fill

theorem take_stored (hs : r.piece.segLen = c.length) (hin : r.nextNo * rowBytes < c.length) :
    r.take z (compressBlock z (rowOf c r.nextNo)) = .ok (some (r.nextNo, rowOf c r.nextNo), { r with nextNo := r.nextNo + 1 }) := by
  rw [take, hs, decodeRow_stored z hin]
  rfl

theorem scan_row (hs : r.piece.segLen = c.length) (hle : r.nextNo ≤ r.piece.hi)
    (hin : r.nextNo * rowBytes < c.length) {early : Nat → Option Bytes}
    (h : Feed z c r.piece r.nextNo rows early) (he : early r.nextNo = none) :
    ∃ r', r.scan z rows early = .ok (some (r.nextNo, rowOf c r.nextNo), r') ∧ r'.Fed z c ∧ r'.nextNo = r.nextNo + 1 ∧ r.Later r' := by
  induction rows generalizing early with
  | nil =>
    rcases h.reach _ (le_refl _) hle hin with hn | ⟨d, hd⟩
    · exact absurd he hn
    · cases hd
  | cons row rest ih =>
    obtain ⟨no, data⟩ := row
    obtain ⟨hdata, hno⟩ := h.queried no data mem_cons_self
    have hrest : ∀ k d, (k, d) ∈ rest → d = compressBlock z (rowOf c k) ∧ k * rowBytes < c.length :=
      fun k d hk => h.queried k d (mem_cons_of_mem _ hk)
    rw [scan]
    by_cases hskip : no < r.nextNo ∨ r.piece.hi < no
    · -- a row of no interest
      rw [if_pos hskip]
      refine ih ⟨hrest, h.waiting, fun k hk hkhi hkin => ?_⟩ he
      refine (h.reach k hk hkhi hkin).imp_right fun ⟨d, hd⟩ => ?_
      rcases mem_cons.1 hd with heq | hd
      · cases heq
        omega
      · exact ⟨d, hd⟩
    · rw [if_neg hskip]
      by_cases hearly : r.nextNo < no
      · -- a row before its turn
        have hne : data ≠ [] := hdata ▸ compressBlock_ne_nil z (rowOf_ne_nil hno)
        rw [if_pos hearly]
        refine ih ⟨hrest, fun k d hk => ?_, fun k hk hkhi hkin => ?_⟩ (by simp [show r.nextNo ≠ no by omega, he])
        · by_cases hkn : k = no
          · subst hkn
            simp only [if_true, hne, if_false, Option.some.injEq] at hk
            exact ⟨hk ▸ hdata, hno, by omega⟩
          · simp only [hkn, if_false] at hk
            exact h.waiting k d hk
        · by_cases hkn : k = no
          · exact .inl (by simp [hkn, hne])
          · refine (h.reach k hk hkhi hkin).imp (fun hn => by simpa [hkn] using hn) fun ⟨d, hd⟩ => ?_
            rcases mem_cons.1 hd with heq | hd
            · cases heq
              exact absurd rfl hkn
            · exact ⟨d, hd⟩
      · -- the row itself
        obtain rfl : no = r.nextNo := by omega
        rw [if_neg hearly, hdata]
        refine ⟨_, take_stored hs hin, ⟨hs, ?_⟩, rfl, rfl, rfl, rfl, rfl, rfl⟩
        refine ⟨hrest, h.waiting, fun k hk hkhi hkin => ?_⟩
        refine (h.reach k (by simp only at hk; omega) hkhi hkin).imp_right fun ⟨d, hd⟩ => ?_
        rcases mem_cons.1 hd with heq | hd
        · cases heq
          simp only at hk
          omega
        · exact ⟨d, hd⟩

theorem Fed.next (h : r.Fed z c) (hle : r.nextNo ≤ r.piece.hi) (hin : r.nextNo * rowBytes < c.length) :
    ∃ r', r.next z = .ok (some (r.nextNo, rowOf c r.nextNo), r') ∧ r'.Fed z c ∧ r'.nextNo = r.nextNo + 1 ∧ r.Later r' := by
  cases he : r.early r.nextNo with
  | none =>
    simp only [RowReader.next, he]
    exact scan_row h.segLen hle hin h.feed he
  | some data =>
    obtain ⟨hdata, -, -⟩ := h.feed.waiting _ _ he
    simp only [RowReader.next, he, hdata]
    refine ⟨_, take_stored h.segLen hin,
      ⟨h.segLen, h.feed.queried, fun k d hk => ?_, fun k hk hkhi hkin => ?_⟩, rfl, rfl, rfl, rfl, rfl, rfl⟩
    · simp only at hk
      split at hk
      · cases hk
      · exact h.feed.waiting k d hk
    · have hk : r.nextNo + 1 ≤ k := hk
      simp only [show k ≠ r.nextNo by omega, if_false]
      exact h.feed.reach k (by omega) hkhi hkin

theorem scan_end (hhi : r.piece.hi < r.nextNo) (rows : List RawRow) (early : Nat → Option Bytes) :
    r.scan z rows early = .ok (none, { r with rows := [], early := early }) := by
  induction rows with
  | nil => rw [scan, if_neg (by omega)]
  | cons row rest ih =>
    obtain ⟨no, data⟩ := row
    rw [scan, if_pos (by omega), ih]

theorem Fed.next_end (h : r.Fed z c) (hhi : r.piece.hi < r.nextNo) :
    ∃ r', r.next z = .ok (none, r') ∧ r'.Fed z c ∧ r'.nextNo = r.nextNo ∧ r.Later r' := by
  cases he : r.early r.nextNo with
  | none =>
    simp only [RowReader.next, he, scan_end hhi]
    refine ⟨_, rfl, ⟨h.segLen, nofun, h.feed.waiting, fun no hno hnohi => ?_⟩, rfl, rfl, rfl, rfl, rfl, rfl⟩
    have hno : r.nextNo ≤ no := hno
    have hnohi : no ≤ r.piece.hi := hnohi
    omega
  | some data =>
    have := (h.feed.waiting _ _ he).2.2
    omega

theorem scan_missing (hle : r.nextNo ≤ r.piece.hi) (hout : c.length ≤ r.nextNo * rowBytes)
    (h : ∀ no d, (no, d) ∈ rows → no * rowBytes < c.length) (early : Nat → Option Bytes) :
    r.scan z rows early = .error (.rowMissing r.piece.fileID r.piece.lo r.piece.hi r.nextNo) := by
  induction rows with
  | nil => rw [scan, if_pos hle]
  | cons row rest ih =>
    obtain ⟨no, data⟩ := row
    have hno := h no data mem_cons_self
    have hlt : no < r.nextNo := by
      by_contra hge
      have := Nat.mul_le_mul_right rowBytes (Nat.not_lt.1 hge)
      omega
    rw [scan, if_pos (.inl hlt)]
    exact ih fun k d hk => h k d (mem_cons_of_mem _ hk)

theorem Fed.next_missing (h : r.Fed z c) (hle : r.nextNo ≤ r.piece.hi) (hout : c.length ≤ r.nextNo * rowBytes) :
    r.next z = .error (.rowMissing r.piece.fileID r.piece.lo r.piece.hi r.nextNo) := by
  cases he : r.early r.nextNo with
  | none =>
    simp only [RowReader.next, he]
    exact scan_missing hle hout (fun no d hd => (h.feed.queried no d hd).2) r.early
  | some data =>
    have := (h.feed.waiting _ _ he).2.1
    omega

/-! ## Chunks -/

/-- A reader of a piece whose file is a part of the object. -/
structure Going (z : Zstd) (c object : Bytes) (r : RowReader) : Prop where
  fed : r.Fed z c
  bytes : object.extract r.piece.base (r.piece.base + c.length) = c
  le : r.nextNo ≤ r.piece.hi + 1
  /-- The last row has been read only if it is there. -/
  seen : r.nextNo ≤ r.piece.hi ∨ r.piece.hi * rowBytes < c.length
  fill : ∀ f, r.fill = some f → f.Sound c r.nextNo ∧ f.hi = r.piece.hi

def mark (r : RowReader) : Nat :=
  match r.fill with
  | some f => f.mark r.nextNo
  | none => r.nextNo

def rest (object c : Bytes) (r : RowReader) : Bytes :=
  clip object r.spanStart (r.spanEnd + 1) (r.piece.base + min c.length (r.mark * rowBytes))
    (r.piece.base + min c.length ((r.piece.hi + 1) * rowBytes))

variable {object : Bytes} {r : RowReader}

theorem appendRow_rowOf (hc : object.extract r.piece.base (r.piece.base + c.length) = c) {no : Nat} (hin : no * rowBytes < c.length)
    (out : Bytes) : r.appendRow out no (rowOf c no) =
      out ++ clip object r.spanStart (r.spanEnd + 1) (r.piece.base + min c.length (no * rowBytes))
        (r.piece.base + min c.length ((no + 1) * rowBytes)) := by
  have hlen := length_rowOf c no
  have hrow : 0 < rowBytes := by decide
  simp only [appendRow, hlen, Nat.succ_mul]
  generalize hA : no * rowBytes = A at *
  split
  · have hpart : rowOf c no = object.extract (r.piece.base + A) (r.piece.base + min c.length (A + rowBytes)) := by
      rw [rowOf, hA]
      conv_lhs => rw [← hc]
      rw [extract_extract]
      congr 1
      omega
    rw [hpart, extract_extract, clip]
    congr 2
    · omega
    · omega
  · rw [clip_eq_nil object (by omega), append_nil]

/-- What one row changes: it is handed out, kept for a block, or completes one. -/
theorem Going.row (h : r.Going z c object) (hle : r.nextNo ≤ r.piece.hi) (hin : r.nextNo * rowBytes < c.length) (contains : Nat → Bool) :
    ∃ r₁, r.next z = .ok (some (r.nextNo, rowOf c r.nextNo), r₁) ∧
      let x := r₁.addRow contains r.nextNo (rowOf c r.nextNo)
      x.2.Going z c object ∧ x.2.nextNo = r.nextNo + 1 ∧ x.2.piece = r.piece ∧ x.2.spanStart = r.spanStart ∧ x.2.spanEnd = r.spanEnd ∧
        x.2.pending = r.pending ∧
        ((∃ block, x.1 = (some block, true) ∧
            clipBlock r.piece.base (r.nextNo / blockRows) block r.spanStart r.spanEnd ++ x.2.rest object c = r.rest object c) ∨
          (x.1 = (none, true) ∧ x.2.rest object c = r.rest object c) ∨
          (x.1 = (none, false) ∧ ∀ out, x.2.appendRow out r.nextNo (rowOf c r.nextNo) ++
            x.2.rest object c = out ++ r.rest object c)) := by
  obtain ⟨r₁, hnext, hfed, hno, hp, hs, he, hpend, hfill⟩ := h.fed.next hle hin
  refine ⟨r₁, hnext, ?_⟩
  have hmono : ∀ {a b : Nat}, a ≤ b → r.piece.base + min c.length (a * rowBytes) ≤ r.piece.base + min c.length (b * rowBytes) := by
    intro a b hab
    have := Nat.mul_le_mul_right rowBytes hab
    omega
  -- handing the row out moves the mark by one
  have hout : ∀ r₂ : RowReader, r₂.piece = r.piece → r₂.spanStart = r.spanStart → r₂.spanEnd = r.spanEnd → r.mark = r.nextNo →
      r₂.mark = r.nextNo + 1 → ∀ out, r₂.appendRow out r.nextNo (rowOf c r.nextNo) ++ r₂.rest object c = out ++ r.rest object c := by
    intro r₂ hp₂ hs₂ he₂ hm hm₂ out
    rw [appendRow_rowOf (by rw [hp₂]; exact h.bytes) hin, rest, rest, hp₂, hs₂, he₂, hm, hm₂, append_assoc]
    congr 1
    exact clip_append object _ _ (hmono (by omega)) (hmono (by omega))
  have hseen : r.nextNo + 1 ≤ r.piece.hi ∨ r.piece.hi * rowBytes < c.length := by
    by_cases hend : r.nextNo = r.piece.hi
    · exact .inr (hend ▸ hin)
    · exact .inl (by omega)
  cases hf : r.fill with
  | none =>
    have hadd : r₁.addRow contains r.nextNo (rowOf c r.nextNo) = ((none, false), r₁) := by simp [addRow, hfill, hf]
    simp only [hadd]
    refine ⟨⟨hfed, by rw [hp]; exact h.bytes, by rw [hp, hno]; omega, by rw [hp, hno]; exact hseen, ?_⟩, hno, hp, hs, he, hpend, ?_⟩
    · intro f hf'
      rw [hfill, hf] at hf'
      cases hf'
    · refine .inr (.inr ⟨trivial, hout r₁ hp hs he ?_ ?_⟩)
      · simp [mark, hf]
      · simp [mark, hfill, hf, hno]
  | some f =>
    obtain ⟨hsound, hhi⟩ := h.fill f hf
    obtain ⟨hsound', hhi', hres⟩ := hsound.add hin contains
    have hadd : r₁.addRow contains r.nextNo (rowOf c r.nextNo) =
        ((f.add contains r.nextNo (rowOf c r.nextNo)).1, { r₁ with fill := some (f.add contains r.nextNo (rowOf c r.nextNo)).2 }) := by
      simp [addRow, hfill, hf]
    simp only [hadd]
    refine ⟨⟨⟨hfed.segLen, hfed.feed⟩, by rw [hp]; exact h.bytes, by simp only [hp, hno]; omega, by simp only [hp, hno]; exact hseen, ?_⟩,
      hno, hp, hs, he, hpend, ?_⟩
    · intro g hg
      cases hg
      exact ⟨by rw [hno]; exact hsound', by rw [hhi', hhi, hp]⟩
    · have hm : r.mark = f.mark r.nextNo := by simp [mark, hf]
      rcases hres with ⟨h1, h2, h3⟩ | ⟨h1, h2⟩ | ⟨h1, h2, h3⟩
      · refine .inl ⟨_, h1, ?_⟩
        have hm₂ : mark { r₁ with fill := some (f.add contains r.nextNo (rowOf c r.nextNo)).2 } = r.nextNo + 1 := by
          simp [mark, BlockFill.mark, h2, hno]
        have hdiv : r.nextNo / blockRows * blockRows ≤ r.nextNo := Nat.div_mul_le_self _ _
        rw [clipBlock_rowsOf h.bytes _ _ _ _ (by omega), rest, rest, hm₂]
        simp only [hp, hs, he]
        rw [hm, h3]
        exact clip_append object _ _ (hmono (by omega)) (hmono (by omega))
      · refine .inr (.inl ⟨h1, ?_⟩)
        have hm₂ : mark { r₁ with fill := some (f.add contains r.nextNo (rowOf c r.nextNo)).2 } = r.mark := by
          simp only [mark, hno, h2, hf]
        rw [rest, rest, hm₂]
        simp only [hp, hs, he]
      · refine .inr (.inr ⟨h1, hout _ hp hs he (hm.trans h3) ?_⟩)
        simp [mark, BlockFill.mark, h2, hno]

theorem Going.rest_end (h : r.Going z c object) (hend : r.piece.hi < r.nextNo) : r.rest object c = [] := by
  have hno : r.nextNo = r.piece.hi + 1 := by
    have := h.le
    omega
  have hm : r.mark = r.piece.hi + 1 := by
    unfold mark
    cases hf : r.fill with
    | none => exact hno
    | some f =>
      obtain ⟨hsound, hhi⟩ := h.fill f hf
      cases hc : f.current with
      | none => simp [BlockFill.mark, hc, hno]
      | some x =>
        obtain ⟨-, h2, h3, -⟩ := hsound.current x.1 x.2 hc
        omega
  rw [rest, hm]
  exact clip_eq_nil object (by omega)

def Same (r r' : RowReader) : Prop := r'.piece = r.piece ∧ r'.spanStart = r.spanStart ∧ r'.spanEnd = r.spanEnd

theorem Same.trans {r₁ r₂ r₃ : RowReader} (h : Same r₁ r₂) (h' : Same r₂ r₃) : Same r₁ r₃ :=
  ⟨h'.1.trans h.1, h'.2.1.trans h.2.1, h'.2.2.trans h.2.2⟩

/-- What `nextChunk` answers: a chunk, and the rest is that much shorter; the end, and there is no
rest; or an error, and the piece has a row that the file does not have. -/
inductive Answer (z : Zstd) (c object : Bytes) (r : RowReader) (out : Bytes) : Except ReadError (Option Bytes × RowReader) → Prop
  | chunk {b : Bytes} {r' : RowReader} (hg : r'.Going z c object) (hsame : r.Same r') (hb : b ≠ []) (hno : out = [] → r.nextNo < r'.nextNo)
      (hmono : r.nextNo ≤ r'.nextNo) (hrest : b ++ (r'.pending.getD [] ++ r'.rest object c) = out ++ r.rest object c) :
      Answer z c object r out (.ok (some b, r'))
  | eof {r' : RowReader} (hg : r'.Going z c object) (hin : r.piece.hi * rowBytes < c.length) (hrest : out ++ r.rest object c = []) :
      Answer z c object r out (.ok (none, r'))
  | error {e : ReadError} (hout : c.length ≤ r.piece.hi * rowBytes) : Answer z c object r out (.error e)

theorem Answer.later {r' : RowReader} {out out' : Bytes} {x : Except ReadError (Option Bytes × RowReader)}
    (h : Answer z c object r' out' x) (hsame : r.Same r') (hno : r.nextNo < r'.nextNo)
    (hrest : out' ++ r'.rest object c = out ++ r.rest object c) : Answer z c object r out x := by
  cases h with
  | chunk hg hsame' hb _ hmono hrest' => exact .chunk hg (hsame.trans hsame') hb (fun _ => by omega) (by omega) (hrest'.trans hrest)
  | eof hg hin hrest' => exact .eof hg (hsame.1 ▸ hin) (hrest.symm.trans hrest')
  | error hout => exact .error (hsame.1 ▸ hout)

theorem Going.chunkLoop (contains : Nat → Bool) {fuel : Nat} (h : r.Going z c object) (hp : r.pending = none)
    (hf : r.piece.hi + 2 ≤ fuel + r.nextNo) (out : Bytes) : Answer z c object r out (r.chunkLoop z contains fuel out) := by
  induction fuel generalizing r out with
  | zero =>
    have := h.le
    omega
  | succ fuel ih =>
    by_cases hle : r.nextNo ≤ r.piece.hi
    · by_cases hin : r.nextNo * rowBytes < c.length
      · -- one row, and then one of the three ways it can go
        obtain ⟨r₁, hnext, hx⟩ := h.row hle hin contains
        generalize hadd : r₁.addRow contains r.nextNo (rowOf c r.nextNo) = x at hx
        obtain ⟨⟨block, inBlock⟩, r₂⟩ := x
        obtain ⟨hg, hno, hpc, hs, he, hpend, hres⟩ := hx
        have hsame : r.Same r₂ := ⟨hpc, hs, he⟩
        have hlt : r.nextNo < r₂.nextNo := by
          have hno : r₂.nextNo = r.nextNo + 1 := hno
          omega
        have hgo : ∀ out' : Bytes, out' ++ r₂.rest object c = out ++ r.rest object c →
            Answer z c object r out (r₂.chunkLoop z contains fuel out') := by
          intro out' hrest
          refine (ih hg (hpend.trans hp) ?_ out').later hsame hlt hrest
          have hpc : r₂.piece = r.piece := hpc
          rw [hpc]
          omega
        have hpn : r₂.pending = none := hpend.trans hp
        simp only [RowReader.chunkLoop, hnext, bind, Except.bind, pure, Except.pure, hadd]
        rcases hres with ⟨b, hb, hrest⟩ | ⟨hb, hrest⟩ | ⟨hb, hrest⟩
        · cases hb
          have hclip : clipBlock r₂.piece.base (r.nextNo / blockRows) b r₂.spanStart r₂.spanEnd =
              clipBlock r.piece.base (r.nextNo / blockRows) b r.spanStart r.spanEnd := by
            rw [hsame.1, hsame.2.1, hsame.2.2]
          simp only [hclip]
          generalize clipBlock r.piece.base (r.nextNo / blockRows) b r.spanStart r.spanEnd = clipped at hrest ⊢
          have hrest : clipped ++ r₂.rest object c = r.rest object c := hrest
          by_cases hc : 0 < clipped.length
          · rw [if_pos hc]
            by_cases ho : 0 < out.length
            · rw [if_pos ho]
              have hg' : ({ r₂ with pending := some clipped } : RowReader).Going z c object :=
                ⟨⟨hg.fed.segLen, hg.fed.feed⟩, hg.bytes, hg.le, hg.seen, hg.fill⟩
              refine .chunk hg' hsame (length_pos_iff.1 ho) (fun _ => hlt) hlt.le ?_
              show out ++ (clipped ++ r₂.rest object c) = _
              rw [hrest]
            · have ho : out = [] := length_eq_zero_iff.1 (by omega)
              rw [if_neg (by simp [ho])]
              refine .chunk hg hsame (length_pos_iff.1 hc) (fun _ => hlt) hlt.le ?_
              rw [hpn, ho, ← hrest]
              rfl
          · have hc : clipped = [] := length_eq_zero_iff.1 (by omega)
            rw [if_neg (by simp [hc])]
            exact hgo out (by rw [← hrest, hc, nil_append])
        · cases hb
          exact hgo out (congrArg (out ++ ·) hrest)
        · cases hb
          have hrest : r₂.appendRow out r.nextNo (rowOf c r.nextNo) ++ r₂.rest object c = out ++ r.rest object c := hrest out
          dsimp only
          split
          · next hlen =>
            have hne : r₂.appendRow out r.nextNo (rowOf c r.nextNo) ≠ [] := by
              intro hnil
              rw [hnil] at hlen
              simp [chunkSize] at hlen
            refine .chunk hg hsame hne (fun _ => hlt) hlt.le ?_
            rw [hpn]
            exact hrest
          · exact hgo _ hrest
      · -- a row that the file does not have
        have hmiss := h.fed.next_missing hle (Nat.not_lt.1 hin)
        simp only [RowReader.chunkLoop, hmiss, bind, Except.bind]
        exact .error ((Nat.not_lt.1 hin).trans (Nat.mul_le_mul_right _ hle))
    · -- the end
      have hend : r.piece.hi < r.nextNo := by omega
      obtain ⟨r', hnext, hfed, hno, hpc, hs, he, hpend, hfill⟩ := h.fed.next_end hend
      have hg : r'.Going z c object := by
        refine ⟨hfed, by rw [hpc]; exact h.bytes, by rw [hpc, hno]; exact h.le, by rw [hpc, hno]; exact h.seen, fun f hf' => ?_⟩
        rw [hno, hpc]
        exact h.fill f (hfill ▸ hf')
      have hin : r.piece.hi * rowBytes < c.length := h.seen.resolve_left hle
      have hnil := h.rest_end hend
      have hnil' : r'.rest object c = [] := hg.rest_end (by rw [hpc, hno]; exact hend)
      simp only [RowReader.chunkLoop, hnext]
      show Answer z c object r out (.ok (if 0 < out.length then some out else none, r'))
      by_cases ho : 0 < out.length
      · rw [if_pos ho]
        refine .chunk hg ⟨hpc, hs, he⟩ (length_pos_iff.1 ho) (fun hn => by simp [hn] at ho) (by omega) ?_
        rw [hpend, hp, hnil, hnil']
        rfl
      · have ho : out = [] := length_eq_zero_iff.1 (by omega)
        rw [if_neg (by simp [ho])]
        exact .eof hg hin (by rw [ho, hnil]; rfl)

theorem Going.nextChunk (contains : Nat → Bool) (h : r.Going z c object) (hp : r.pending = none) :
    Answer z c object r [] (r.nextChunk z contains) := by
  simp only [RowReader.nextChunk, hp]
  have hle := h.le
  exact h.chunkLoop contains hp (by omega) []

theorem Going.puts (h : r.Going z c object) : ∀ b d, (b, d) ∈ (r.fill.map (·.puts)).getD [] → d = blockOf c b := by
  intro b d hd
  cases hf : r.fill with
  | none =>
    rw [hf] at hd
    cases hd
  | some f =>
    rw [hf] at hd
    exact (h.fill f hf).1.puts b d hd

end RowReader

/-- What a worker has sent for a piece: all of it, unless the piece has a row that the file does not
have. -/
structure Streamed.Of (c : Bytes) (hi : Nat) (bytes : Bytes) (s : Streamed) : Prop where
  error : s.error = none ↔ hi * rowBytes < c.length
  chunks : s.error = none → s.chunks.flatten = bytes
  puts : ∀ b d, (b, d) ∈ s.puts → d = blockOf c b

theorem streamChunks_of (contains : Nat → Bool) (fuel : Nat) (h : r.Going z c object)
    (hf : 2 * (r.piece.hi + 1 - r.nextNo) + (if r.pending = none then 0 else 1) < fuel) :
    Streamed.Of c r.piece.hi (r.pending.getD [] ++ r.rest object c) (streamChunks z contains fuel r) := by
  induction fuel generalizing r with
  | zero => omega
  | succ fuel ih =>
    cases hp : r.pending with
    | some p =>
      -- a block that was to be handed out next
      have hg : RowReader.Going z c object { r with pending := none } :=
        ⟨⟨h.fed.segLen, h.fed.feed⟩, h.bytes, h.le, h.seen, h.fill⟩
      have hs := ih hg (by simp only [hp, reduceCtorEq, if_false] at hf; simp only [if_true]; omega)
      simp only [streamChunks, RowReader.nextChunk, hp]
      exact ⟨hs.error, fun he => by rw [flatten_cons, hs.chunks he]; rfl, hs.puts⟩
    | none =>
      have hans := h.nextChunk contains hp
      simp only [streamChunks]
      generalize r.nextChunk z contains = x at hans
      cases hans with
      | chunk hg hsame hb hno hmono hrest =>
        next b r' =>
        have hs := ih hg (by
          have := hno rfl
          have := hg.le
          rw [hsame.1] at this ⊢
          rw [hp, if_pos rfl] at hf
          split <;> omega)
        rw [hsame.1] at hs
        exact ⟨hs.error, fun he => by rw [flatten_cons, hs.chunks he]; exact hrest, hs.puts⟩
      | eof hg hin hrest =>
        exact ⟨iff_of_true rfl hin, fun _ => hrest.symm, hg.puts⟩
      | error hout => exact ⟨iff_of_false nofun (Nat.not_lt.2 hout), nofun, h.puts⟩

/-- What the query of a piece returns: the rows of the file in the range, each once or more, in any
order. -/
def Queried (z : Zstd) (c : Bytes) (p : Piece) (rows : List RawRow) : Prop :=
  ∀ no d, (no, d) ∈ rows ↔ p.lo ≤ no ∧ no ≤ p.hi ∧ no * rowBytes < c.length ∧ d = compressBlock z (rowOf c no)

/-- A worker sends the bytes of its piece, whatever the order of the rows and whatever the cache
answers. -/
theorem streamRows_of {p : Piece} {rows : List RawRow} (hs : p.segLen = c.length)
    (hc : object.extract p.base (p.base + c.length) = c) (hle : p.lo ≤ p.hi) (hq : Queried z c p rows) (contains : Nat → Bool)
    (enabled : Bool) (start stop : Nat) :
    (streamRows z contains enabled p start stop rows).Of c p.hi
      (clip object start (stop + 1) (p.base + min c.length (p.lo * rowBytes)) (p.base + min c.length ((p.hi + 1) * rowBytes))) := by
  have hg : RowReader.Going z c object (newChunkRowReader rows p start stop (fill enabled p)) := by
    refine ⟨⟨hs, fun no d hd => ?_, nofun, fun no hlo hhi hin => .inr ⟨_, (hq no _).2 ⟨hlo, hhi, hin, rfl⟩⟩⟩, hc,
      Nat.le_succ_of_le hle, .inl hle, fun f hf => ?_⟩
    · obtain ⟨-, -, hin, hd⟩ := (hq no d).1 hd
      exact ⟨hd, hin⟩
    · cases enabled with
      | false => cases hf
      | true =>
        cases hf
        exact ⟨⟨hs, nofun, nofun⟩, rfl⟩
  have hm : (newChunkRowReader rows p start stop (fill enabled p)).mark = p.lo := by
    cases enabled <;> rfl
  have hof := streamChunks_of contains (2 * (p.hi + 2 - p.lo) + 2) hg (by simp only [newChunkRowReader, if_true]; omega)
  rw [RowReader.rest, hm] at hof
  exact hof

end Pgvs3.Codec
