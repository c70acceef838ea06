import Pgvs3.Codec.Pieces
/-!
# The block cache of a gateway

What the cache answers changes between any two calls. A reader asks `get` once for each block of a
piece, and `contains` once for each block it begins, so the answers enter as functions of the block.
The hit counters are left out.
-/

namespace Pgvs3.Codec

def blockRows : Nat := 32

/-- `blockcache.go:20-24`. -/
structure BlockKey where
  table : Nat
  file : Int64
  block : Nat
deriving DecidableEq, Repr

/-- `blockcache.go:195-197`. -/
def segmentLastRow (segLen : Nat) : Nat := (segLen - 1) / rowBytes

/-- `blockcache.go:199-201`. -/
def blockLastRow (block segLen : Nat) : Nat := min (block * blockRows + blockRows - 1) (segmentLastRow segLen)

/-- One block, cut to the span (`blockcache.go:204-213`). -/
def clipBlock (base block : Nat) (data : Bytes) (start stop : Nat) : Bytes :=
  let off : Int := block * blockRows * rowBytes
  let lo := max ((start : Int) - base) off
  let hi := min ((stop : Int) - base) (off + data.length - 1)
  let a := max (lo - off) 0
  let z := min (hi - off + 1) data.length
  if z ≤ a then [] else data.extract a.toNat z.toNat

/-- All blocks of a piece, or a miss: `get` is what the cache answers for each block number
(`blockcache.go:82-93`). -/
def lookupBlocks (get : Nat → Option Bytes) : List Nat → Option (List (Nat × Bytes))
  | [] => some []
  | b :: bs =>
    match get b with
    | none => none
    | some data => (lookupBlocks get bs).map ((b, data) :: ·)

def Piece.blocks (p : Piece) : List Nat := List.range' (p.lo / blockRows) (p.hi / blockRows + 1 - p.lo / blockRows)

/-- `blockcache.go:217-241`. -/
def pieceParts (get : Nat → Option Bytes) (p : Piece) (start stop : Nat) : Option (List Bytes) :=
  (lookupBlocks get p.blocks).map fun blocks =>
    (blocks.map fun b => clipBlock p.base b.1 b.2 start stop).filter fun part => 0 < part.length

/-- The block that a reader assembles, if any, and the blocks it has stored
(`blockcache.go:295-303`). -/
structure BlockFill where
  segLen : Nat
  hi : Nat
  /-- `block` and `buf`; `none` stands for -1 and nil. -/
  current : Option (Nat × Bytes)
  /-- What has been put into the cache. -/
  puts : List (Nat × Bytes)

/-- `fill`: nothing is assembled without a cache, or when a block does not fit into a shard
(`blockcache.go:305-312`). -/
def fill (enabled : Bool) (p : Piece) : Option BlockFill := if enabled then some ⟨p.segLen, p.hi, none, []⟩ else none

/-- The first part of `add`: at the first row of a block, begin it unless it is incomplete or in the
cache. -/
def BlockFill.begin (f : BlockFill) (contains : Nat → Bool) (no : Nat) : BlockFill :=
  let b := no / blockRows
  if no % blockRows = 0 then
    if blockLastRow b f.segLen ≤ f.hi ∧ contains b = false then { f with current := some (b, []) } else { f with current := none }
  else f

/-- The second part: the row goes into the block in progress, and the last one completes it. -/
def BlockFill.append (f : BlockFill) (no : Nat) (data : Bytes) : (Option Bytes × Bool) × BlockFill :=
  let b := no / blockRows
  match f.current with
  | none => ((none, false), f)
  | some (block, buf) =>
    if block ≠ b then ((none, false), f)
    else if no = blockLastRow b f.segLen then
      ((some (buf ++ data), true), { f with current := none, puts := f.puts ++ [(b, buf ++ data)] })
    else ((none, true), { f with current := some (block, buf ++ data) })

/-- `add`: the assembled block, if the row completes one, and whether the row went into one
(`blockcache.go:318-346`). -/
def BlockFill.add (f : BlockFill) (contains : Nat → Bool) (no : Nat) (data : Bytes) : (Option Bytes × Bool) × BlockFill :=
  (f.begin contains no).append no data

/-! ## Alignment -/

/-- The loop over the pieces of one segment; `lo` is the row the next piece begins with. -/
def alignGroup (lastRow : Nat) : Nat → List Piece → List Piece
  | _, [] => []
  | lo, p :: rest =>
    -- one past the last row of the piece, which `hi` is in the source
    let stop :=
      match rest with
      | [] => min ((p.hi / blockRows + 1) * blockRows) (lastRow + 1)
      | next :: _ => (next.lo + blockRows / 2) / blockRows * blockRows
    if lo < stop then { p with lo := lo, hi := stop - 1 } :: alignGroup lastRow stop rest else alignGroup lastRow lo rest

/-- The pieces of the same segment at the head of a list. -/
def sameSegment (p q : Piece) : Bool := q.fileID == p.fileID && q.base == p.base

def alignFrom : Nat → List Piece → List Piece
  | 0, _ => []
  | _, [] => []
  | fuel + 1, p :: rest =>
    let group := p :: rest.takeWhile (sameSegment p)
    alignGroup (segmentLastRow p.segLen) (p.lo / blockRows * blockRows) group ++ alignFrom fuel (rest.dropWhile (sameSegment p))

/-- `blockcache.go:350-376`. -/
def alignPieces (pieces : List Piece) : List Piece := alignFrom pieces.length pieces

/-! ## Rows and blocks of a content -/

def rowOf (c : Bytes) (i : Nat) : Bytes := c.extract (i * rowBytes) (i * rowBytes + rowBytes)

theorem length_rowOf (c : Bytes) (i : Nat) : (rowOf c i).length = min rowBytes (c.length - i * rowBytes) := by
  rw [rowOf, length_extract]
  omega

theorem rowOf_ne_nil {c : Bytes} {i : Nat} (h : i * rowBytes < c.length) : rowOf c i ≠ [] := by
  intro hnil
  have hlen := length_rowOf c i
  have hrow : rowBytes = 8120 := rfl
  rw [hnil, List.length_nil] at hlen
  omega

/-- Rows `lo..hi-1` of a content. -/
def rowsOf (c : Bytes) (lo hi : Nat) : Bytes := c.extract (lo * rowBytes) (hi * rowBytes)

theorem rowsOf_succ (c : Bytes) {lo no : Nat} (h : lo ≤ no) : rowsOf c lo no ++ rowOf c no = rowsOf c lo (no + 1) := by
  rw [rowsOf, rowsOf, rowOf, Nat.succ_mul]
  exact extract_append_extract c (Nat.mul_le_mul_right _ h) (by omega)

def blockOf (c : Bytes) (b : Nat) : Bytes := rowsOf c (b * blockRows) (b * blockRows + blockRows)

theorem segmentLastRow_lt {segLen : Nat} (h : 0 < segLen) : segmentLastRow segLen * rowBytes < segLen :=
  lt_of_le_of_lt (Nat.div_mul_le_self _ _) (by omega)

theorem le_segmentLastRow {segLen no : Nat} (h : no * rowBytes < segLen) : no ≤ segmentLastRow segLen :=
  (Nat.le_div_iff_mul_le (by decide)).2 (by omega)

theorem le_rows (segLen : Nat) : segLen ≤ (segmentLastRow segLen + 1) * rowBytes := by
  have := Nat.lt_mul_div_succ (segLen - 1) (show 0 < rowBytes by decide)
  rw [segmentLastRow, Nat.mul_comm]
  omega

theorem rowsOf_blockLastRow (c : Bytes) (b : Nat) : rowsOf c (b * blockRows) (blockLastRow b c.length + 1) = blockOf c b := by
  have hrows : blockRows = 32 := rfl
  by_cases hlt : blockLastRow b c.length < b * blockRows + blockRows - 1
  · have hlast : blockLastRow b c.length = segmentLastRow c.length := by
      simp only [blockLastRow] at hlt ⊢
      omega
    have hend := le_rows c.length
    have hmono : (segmentLastRow c.length + 1) * rowBytes ≤ (b * blockRows + blockRows) * rowBytes :=
      Nat.mul_le_mul_right _ (by omega)
    rw [blockOf, rowsOf, rowsOf, hlast, ← extract_min c (b := (segmentLastRow c.length + 1) * rowBytes),
      ← extract_min c (b := (b * blockRows + blockRows) * rowBytes), Nat.min_eq_right hend, Nat.min_eq_right (hend.trans hmono)]
  · have hlast : blockLastRow b c.length + 1 = b * blockRows + blockRows := by
      simp only [blockLastRow] at hlt ⊢
      omega
    rw [blockOf, hlast]

theorem clipBlock_rowsOf {object c : Bytes} {base : Nat} (hc : object.extract base (base + c.length) = c) (block hi start stop : Nat)
    (hhi : block * blockRows ≤ hi) :
    clipBlock base block (rowsOf c (block * blockRows) hi) start stop =
      clip object start (stop + 1) (base + min c.length (block * blockRows * rowBytes)) (base + min c.length (hi * rowBytes)) := by
  have hlen : (rowsOf c (block * blockRows) hi).length = min (hi * rowBytes) c.length - block * blockRows * rowBytes := length_extract c
  have hmono : block * blockRows * rowBytes ≤ hi * rowBytes := Nat.mul_le_mul_right _ hhi
  have hoff : ((block : Int) * blockRows * rowBytes) = ((block * blockRows * rowBytes : Nat) : Int) := by push_cast; rfl
  simp only [clipBlock, hoff, hlen]
  generalize hA : block * blockRows * rowBytes = A at *
  generalize hB : hi * rowBytes = B at *
  split
  · exact (clip_eq_nil object (by omega)).symm
  · have hpart : rowsOf c (block * blockRows) hi = object.extract (base + A) (base + min c.length B) := by
      rw [rowsOf, hA, hB]
      conv_lhs => rw [← hc]
      rw [extract_extract]
      congr 1
      omega
    rw [hpart, extract_extract, clip]
    congr 1
    · omega
    · omega

/-! ## Assembling blocks -/

namespace BlockFill

/-- Before row `no`: the block in progress holds its rows so far and will get complete, and only
blocks of the content are stored. -/
structure Sound (c : Bytes) (no : Nat) (f : BlockFill) : Prop where
  segLen : f.segLen = c.length
  current : ∀ b buf, f.current = some (b, buf) →
    b * blockRows < no ∧ no ≤ blockLastRow b c.length ∧ blockLastRow b c.length ≤ f.hi ∧ buf = rowsOf c (b * blockRows) no
  puts : ∀ b d, (b, d) ∈ f.puts → d = blockOf c b

/-- The first row that has not been handed out. -/
def mark (f : BlockFill) (no : Nat) : Nat :=
  match f.current with
  | some (b, _) => b * blockRows
  | none => no

variable {c : Bytes} {f : BlockFill} {no : Nat}

/-- The row completes a block, goes into one, or is for the caller. -/
theorem Sound.add (h : Sound c no f) (hin : no * rowBytes < c.length) (contains : Nat → Bool) :
    let x := f.add contains no (rowOf c no)
    Sound c (no + 1) x.2 ∧ x.2.hi = f.hi ∧
      ((x.1 = (some (rowsOf c (no / blockRows * blockRows) (no + 1)), true) ∧ x.2.current = none ∧
        f.mark no = no / blockRows * blockRows) ∨
        (x.1 = (none, true) ∧ x.2.mark (no + 1) = f.mark no) ∨
        (x.1 = (none, false) ∧ x.2.current = none ∧ f.mark no = no)) := by
  have hrows : blockRows = 32 := rfl
  have hdiv := Nat.div_add_mod no blockRows
  have hmod := Nat.mod_lt no (show 0 < blockRows by decide)
  have hmul : blockRows * (no / blockRows) = no / blockRows * blockRows := Nat.mul_comm _ _
  have hle := le_segmentLastRow hin
  -- the two parts of `add`: a block in progress, or none
  have hgo : ∀ g : BlockFill, g.segLen = c.length → g.hi = f.hi → (∀ b d, (b, d) ∈ g.puts → d = blockOf c b) → ∀ buf,
      g.current = some (no / blockRows, buf) → no ≤ blockLastRow (no / blockRows) c.length →
      blockLastRow (no / blockRows) c.length ≤ f.hi → buf = rowsOf c (no / blockRows * blockRows) no →
      Sound c (no + 1) (g.append no (rowOf c no)).2 ∧ (g.append no (rowOf c no)).2.hi = f.hi ∧
        (((g.append no (rowOf c no)).1 = (some (rowsOf c (no / blockRows * blockRows) (no + 1)), true) ∧
            (g.append no (rowOf c no)).2.current = none) ∨
          ((g.append no (rowOf c no)).1 = (none, true) ∧ (g.append no (rowOf c no)).2.mark (no + 1) = no / blockRows * blockRows)) := by
    intro g hs hh hp buf hg hlast hfull hbuf
    have hnext : buf ++ rowOf c no = rowsOf c (no / blockRows * blockRows) (no + 1) := by
      rw [hbuf]
      exact rowsOf_succ c (by omega)
    simp only [append, hg, ne_eq, not_true, if_false, hs, hnext]
    by_cases hend : no = blockLastRow (no / blockRows) c.length
    · rw [if_pos hend]
      refine ⟨⟨rfl, nofun, fun b d hd => ?_⟩, hh, .inl ⟨rfl, rfl⟩⟩
      rcases List.mem_append.1 hd with hd | hd
      · exact hp b d hd
      · cases List.mem_singleton.1 hd
        have hblock := rowsOf_blockLastRow c (no / blockRows)
        rwa [← hend] at hblock
    · rw [if_neg hend]
      refine ⟨⟨rfl, fun b buf' hb => ?_, hp⟩, hh, .inr ⟨rfl, rfl⟩⟩
      cases hb
      exact ⟨by omega, by omega, hh ▸ hfull, rfl⟩
  have hno : ∀ g : BlockFill, g.segLen = c.length → g.hi = f.hi → (∀ b d, (b, d) ∈ g.puts → d = blockOf c b) → g.current = none →
      Sound c (no + 1) (g.append no (rowOf c no)).2 ∧ (g.append no (rowOf c no)).2.hi = f.hi ∧
        (g.append no (rowOf c no)).1 = (none, false) ∧ (g.append no (rowOf c no)).2.current = none := by
    intro g hs hh hp hg
    simp only [append, hg]
    exact ⟨⟨hs, fun b buf hb => (by cases hg.symm.trans hb), hp⟩, hh, trivial, trivial⟩
  simp only [BlockFill.add]
  by_cases hzero : no % blockRows = 0
  · -- the first row of a block: nothing can be in progress
    have hcur : f.current = none := by
      cases hc : f.current with
      | none => rfl
      | some x =>
        obtain ⟨h1, h2, -, -⟩ := h.current x.1 x.2 hc
        have h2 := h2.trans (Nat.min_le_left _ _)
        rw [hrows] at h1 h2 hzero
        omega
    have hmark : f.mark no = no := by simp [mark, hcur]
    by_cases hbegin : blockLastRow (no / blockRows) f.segLen ≤ f.hi ∧ contains (no / blockRows) = false
    · have hb : f.begin contains no = { f with current := some (no / blockRows, []) } := by
        simp only [BlockFill.begin, hzero, hbegin, and_self, if_true]
      rw [hb]
      have hlast : no ≤ blockLastRow (no / blockRows) c.length := by
        simp only [blockLastRow]
        omega
      have hnil : ([] : Bytes) = rowsOf c (no / blockRows * blockRows) no := by
        rw [rowsOf, show no / blockRows * blockRows = no by omega, extract_self]
      obtain ⟨hs, hh, hres⟩ := hgo { f with current := some (no / blockRows, []) } h.segLen rfl
        h.puts [] rfl hlast (h.segLen ▸ hbegin.1) hnil
      refine ⟨hs, hh, ?_⟩
      rcases hres with ⟨h1, h2⟩ | ⟨h1, h2⟩
      · exact .inl ⟨h1, h2, by omega⟩
      · exact .inr (.inl ⟨h1, by omega⟩)
    · have hb : f.begin contains no = { f with current := none } := by
        simp only [BlockFill.begin, hzero, hbegin, if_true, if_false]
      rw [hb]
      obtain ⟨hs, hh, h1, h2⟩ := hno { f with current := none } h.segLen rfl h.puts rfl
      exact ⟨hs, hh, .inr (.inr ⟨h1, h2, hmark⟩)⟩
  · have hb : f.begin contains no = f := by simp only [BlockFill.begin, hzero, if_false]
    rw [hb]
    cases hc : f.current with
    | none =>
      obtain ⟨hs, hh, h1, h2⟩ := hno f h.segLen rfl h.puts hc
      exact ⟨hs, hh, .inr (.inr ⟨h1, h2, by simp [mark, hc]⟩)⟩
    | some x =>
      obtain ⟨b, buf⟩ := x
      obtain ⟨h1, h2, h3, h4⟩ := h.current b buf hc
      have hblast : blockLastRow b c.length ≤ b * blockRows + blockRows - 1 := Nat.min_le_left _ _
      obtain rfl : b = no / blockRows := by
        have : no / blockRows * blockRows ≤ no := Nat.div_mul_le_self _ _
        apply le_antisymm
        · exact (Nat.le_div_iff_mul_le (by decide)).2 h1.le
        · exact Nat.le_of_lt_succ ((Nat.div_lt_iff_lt_mul (by decide)).2 (by rw [Nat.succ_mul]; omega))
      obtain ⟨hs, hh, hres⟩ := hgo f h.segLen rfl h.puts buf hc h2 h3 h4
      have hmark : f.mark no = no / blockRows * blockRows := by simp [mark, hc]
      refine ⟨hs, hh, ?_⟩
      rcases hres with ⟨h1, h2⟩ | ⟨h1, h2⟩
      · exact .inl ⟨h1, h2, hmark⟩
      · exact .inr (.inl ⟨h1, h2.trans hmark.symm⟩)

end BlockFill

end Pgvs3.Codec
