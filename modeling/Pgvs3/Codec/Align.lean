import Pgvs3.Codec.BlockCache
/-!
# Aligned pieces

`alignPieces` (`store/blockcache.go:350-376`) moves the boundaries of the planned pieces to whole
blocks. The pieces of a segment then still follow each other and have all of the span
(`follow_alignGroup`), but a piece may reach beyond the last row of its segment.
-/

namespace Pgvs3.Codec

open List Option

/-! ## The pieces of one segment -/

/-- A piece that begins with a block and ends with one, or with the last row. -/
def Piece.Aligned (p : Piece) : Prop :=
  p.lo % blockRows = 0 ∧ ((p.hi + 1) % blockRows = 0 ∨ p.hi = segmentLastRow p.segLen)

variable {ps : List Piece} {s : Segment} {p : Piece} {c object : Bytes} {get : Nat → Option Bytes} {parts : List Bytes}

/-- `a` is where the planned pieces begin, `e` the last row of the last one, `lo` where the aligned
ones begin, not after the boundary next to `a`. -/
theorem follow_alignGroup {a e : Nat} (hps : ps ≠ []) (h : Follow s a (e + 1) ps)
    (he : e * rowBytes < s.length) {lo : Nat} (hlo : lo % blockRows = 0)
    (hle : lo ≤ (a + blockRows / 2) / blockRows * blockRows) :
    ∃ stop, e + 1 ≤ stop ∧ Follow s lo stop (alignGroup (segmentLastRow s.length) lo ps) ∧
      ∀ p ∈ alignGroup (segmentLastRow s.length) lo ps, p.Aligned := by
  have hrows : blockRows = 32 := rfl
  have hlast := le_segmentLastRow he
  induction ps generalizing a lo with
  | nil => exact absurd rfl hps
  | cons p rest ih =>
    obtain ⟨hf, hb, hl, rfl, hpe, hin, hrest⟩ := h
    cases rest with
    | nil =>
      -- the last piece: up to the end of its block or of the segment
      obtain rfl : p.hi = e := Nat.succ.inj hrest
      simp only [alignGroup]
      generalize hstop : min ((p.hi / blockRows + 1) * blockRows) (segmentLastRow s.length + 1) = stop
      have hge : p.hi + 1 ≤ stop := by
        rw [hrows] at hstop
        omega
      by_cases hlt : lo < stop
      · rw [if_pos hlt]
        have hlo' : lo * rowBytes < s.length :=
          lt_of_le_of_lt (Nat.mul_le_mul_right _ (by omega : lo ≤ segmentLastRow s.length)) (segmentLastRow_lt (by omega))
        refine ⟨stop, hge, ⟨hf, hb, hl, rfl, by simp only; omega, hlo', by show stop - 1 + 1 = stop; omega⟩, fun q hq => ?_⟩
        obtain rfl := mem_singleton.1 hq
        refine ⟨hlo, ?_⟩
        simp only [hl]
        rw [hrows] at hstop ⊢
        omega
      · rw [if_neg hlt]
        exact ⟨lo, by omega, rfl, nofun⟩
    | cons next rest =>
      obtain ⟨hnf, hnb, hnl, hnlo, hne, hnin, hnrest⟩ := hrest
      have hnext : Follow s (p.hi + 1) (e + 1) (next :: rest) := ⟨hnf, hnb, hnl, hnlo, hne, hnin, hnrest⟩
      rw [alignGroup]
      generalize hstop : (next.lo + blockRows / 2) / blockRows * blockRows = stop
      have hmono : lo ≤ stop := by
        rw [hrows] at hle hstop
        omega
      by_cases hlt : lo < stop
      · have hmod : stop % blockRows = 0 := by rw [← hstop, Nat.mul_mod_left]
        have hlo' : lo * rowBytes < s.length := by
          refine lt_of_le_of_lt (Nat.mul_le_mul_right _ (?_ : lo ≤ next.lo)) hnin
          rw [hrows] at hstop hlo hmod
          omega
        obtain ⟨stop', hge, hfollow, hall⟩ := ih (cons_ne_nil _ _) hnext hmod (by rw [← hnlo, hstop])
        simp only [if_pos hlt]
        refine ⟨stop', hge, ⟨hf, hb, hl, rfl, by simp only; omega, hlo', ?_⟩, fun q hq => ?_⟩
        · show Follow s (stop - 1 + 1) stop' _
          rwa [Nat.sub_add_cancel (by omega)]
        · rcases mem_cons.1 hq with rfl | hq
          · refine ⟨hlo, .inl ?_⟩
            show (stop - 1 + 1) % blockRows = 0
            rwa [Nat.sub_add_cancel (by omega)]
          · exact hall q hq
      · simp only [if_neg hlt]
        exact ih (cons_ne_nil _ _) hnext hlo (by rw [← hnlo, hstop]; omega)

/-! ## The pieces of all segments -/

theorem sameSegment_of_in {q : Piece} (hp : p.In s) (hq : q.In s) : sameSegment p q = true := by
  simp [sameSegment, hp.id_eq, hq.id_eq, hp.base_eq, hq.base_eq]

theorem alignFrom_append {rest : List Piece} (hp : p.In s) (hps : ∀ q ∈ ps, q.In s)
    (hrest : ∀ q ∈ rest, q.base ≠ s.base) (fuel : Nat) : alignFrom (fuel + 1) (p :: ps ++ rest) =
      alignGroup (segmentLastRow s.length) (p.lo / blockRows * blockRows) (p :: ps) ++ alignFrom fuel rest := by
  have hsame : ∀ q ∈ ps, sameSegment p q = true := fun q hq => sameSegment_of_in hp (hps q hq)
  have hother : ∀ q ∈ rest, sameSegment p q = false := by
    intro q hq
    simp [sameSegment, hp.base_eq, hrest q hq]
  have hstop : rest.takeWhile (sameSegment p) = [] ∧ rest.dropWhile (sameSegment p) = rest := by
    cases rest with
    | nil => exact ⟨rfl, rfl⟩
    | cons q rest => simp [hother q mem_cons_self]
  rw [cons_append, alignFrom]
  simp only [takeWhile_append_of_pos hsame, dropWhile_append_of_pos hsame, hstop.1, hstop.2, append_nil, hp.length_eq]

theorem alignFrom_flatMap {segs : List Segment} (hbase : segs.Pairwise fun s t => s.base < t.base) {pieces : Segment → List Piece}
    (hin : ∀ s ∈ segs, ∀ p ∈ pieces s, p.In s) (hne : ∀ s ∈ segs, pieces s ≠ []) {fuel : Nat} (hf : segs.length ≤ fuel) :
    alignFrom fuel (segs.flatMap pieces) = segs.flatMap fun s =>
      alignGroup (segmentLastRow s.length) (((pieces s).head?.map (·.lo)).getD 0 / blockRows * blockRows) (pieces s) := by
  induction segs generalizing fuel with
  | nil => cases fuel <;> rfl
  | cons s segs ih =>
    obtain ⟨hlt, hbase⟩ := pairwise_cons.1 hbase
    cases fuel with
    | zero => simp at hf
    | succ fuel =>
      have hs := hin s mem_cons_self
      rw [flatMap_cons, flatMap_cons]
      cases hps : pieces s with
      | nil => exact absurd hps (hne s mem_cons_self)
      | cons p ps =>
        rw [hps] at hs
        have hrest : ∀ q ∈ segs.flatMap pieces, q.base ≠ s.base := by
          intro q hq
          obtain ⟨t, ht, hq⟩ := mem_flatMap.1 hq
          rw [(hin t (mem_cons_of_mem _ ht) q hq).base_eq]
          exact (hlt t ht).ne'
        rw [alignFrom_append (hs p mem_cons_self) (fun q hq => hs q (mem_cons_of_mem _ hq)) hrest]
        rw [ih hbase (fun t ht => hin t (mem_cons_of_mem _ ht)) (fun t ht => hne t (mem_cons_of_mem _ ht)) (Nat.le_of_succ_le_succ hf)]
        rfl

section Objects

variable {content : Int64 → Bytes} {start : Nat}

theorem base_segmentsOf (prev : Nat) (ids : List Int64) : ∀ s ∈ segmentsOf content prev ids, prev ≤ s.base := by
  induction ids generalizing prev with
  | nil => exact nofun
  | cons id ids ih =>
    intro s hs
    rcases mem_cons.1 hs with rfl | hs
    · exact le_refl _
    · exact (Nat.le_add_right _ _).trans (ih _ s hs)

theorem pairwise_segmentsOf (prev : Nat) (ids : List Int64) :
    (segmentsOf content prev ids).Pairwise fun s t => 0 < s.length → s.base < t.base := by
  induction ids generalizing prev with
  | nil => exact .nil
  | cons id ids ih =>
    refine .cons (fun t ht hpos => ?_) (ih _)
    exact lt_of_lt_of_le (Nat.lt_add_of_pos_right hpos) (base_segmentsOf _ _ t ht)

theorem pairwise_touched (ids : List Int64) (start stop : Nat) :
    (touched content ids start stop).Pairwise fun s t => s.base < t.base := by
  refine ((pairwise_segmentsOf 0 ids).filter _).imp_of_mem fun hs _ hlt => hlt ?_
  exact (Segment.overlaps_iff.1 (mem_filter.1 hs).2).1

/-- The aligned pieces of a planned span: each segment's pieces, from the block of the first row on.
-/
theorem alignPieces_planned (content : Int64 → Bytes) (ids : List Int64) {stop : Nat} (hle : start ≤ stop) (parallel overlapping : Nat) :
    alignPieces ((touched content ids start stop).flatMap (segmentPieces start stop parallel overlapping)) =
      (touched content ids start stop).flatMap fun s => alignGroup (segmentLastRow s.length)
        (s.firstRow start / blockRows * blockRows) (segmentPieces start stop parallel overlapping s) := by
  have hov : ∀ s ∈ touched content ids start stop, s.overlaps start stop = true := fun s hs => (mem_filter.1 hs).2
  have hhead : ∀ s ∈ touched content ids start stop, ∃ p ps, segmentPieces start stop parallel overlapping s = p :: ps ∧
      p.lo = s.firstRow start := by
    intro s hs
    have hfollow := follow_segmentPieces parallel overlapping (hov s hs) hle
    have hrows := (rows_of_overlaps (hov s hs) hle).1
    cases hps : segmentPieces start stop parallel overlapping s with
    | nil =>
      rw [hps] at hfollow
      have : s.firstRow start = s.lastRow stop + 1 := hfollow
      omega
    | cons p ps =>
      rw [hps] at hfollow
      exact ⟨p, ps, rfl, hfollow.2.2.2.1⟩
  have hne : ∀ s ∈ touched content ids start stop, segmentPieces start stop parallel overlapping s ≠ [] := by
    intro s hs
    obtain ⟨p, ps, hps, -⟩ := hhead s hs
    simp [hps]
  have hlen : ∀ segs : List Segment, (∀ s ∈ segs, segmentPieces start stop parallel overlapping s ≠ []) →
      segs.length ≤ (segs.flatMap (segmentPieces start stop parallel overlapping)).length := by
    intro segs hsegs
    induction segs with
    | nil => exact Nat.zero_le _
    | cons s segs ih =>
      have := length_pos_iff.2 (hsegs s mem_cons_self)
      have := ih fun t ht => hsegs t (mem_cons_of_mem _ ht)
      rw [flatMap_cons, length_append, length_cons]
      omega
  rw [alignPieces, alignFrom_flatMap (pairwise_touched ids start stop)
    (fun s hs => (follow_segmentPieces parallel overlapping (hov s hs) hle).mem) hne (hlen _ hne)]
  refine flatMap_congr fun s hs => ?_
  obtain ⟨p, ps, hps, hlo⟩ := hhead s hs
  rw [hps]
  simp only [head?_cons, map_some, getD_some, hlo]

theorem follow_alignedSegment {stop : Nat} (parallel overlapping : Nat) (h : s.overlaps start stop = true) (hle : start ≤ stop) :
    ∃ e, s.lastRow stop + 1 ≤ e ∧ Follow s (s.firstRow start / blockRows * blockRows) e
        (alignGroup (segmentLastRow s.length) (s.firstRow start / blockRows * blockRows)
          (segmentPieces start stop parallel overlapping s)) ∧
      ∀ p ∈ alignGroup (segmentLastRow s.length) (s.firstRow start / blockRows * blockRows)
        (segmentPieces start stop parallel overlapping s), p.Aligned := by
  have hfollow := follow_segmentPieces parallel overlapping h hle
  obtain ⟨hrows, hin⟩ := rows_of_overlaps h hle
  refine follow_alignGroup ?_ hfollow hin (Nat.mul_mod_left _ _) (Nat.mul_le_mul_right _ (Nat.div_le_div_right (by omega)))
  intro hnil
  rw [hnil] at hfollow
  have : s.firstRow start = s.lastRow stop + 1 := hfollow
  omega

theorem bytes_aligned {ids : List Int64} {stop : Nat} (hle : start ≤ stop) (hstop : stop < (ids.flatMap content).length)
    (parallel overlapping : Nat) :
    (alignPieces ((touched content ids start stop).flatMap (segmentPieces start stop parallel overlapping))).flatMap
      (·.bytes (ids.flatMap content) start stop) = (ids.flatMap content).extract start (stop + 1) := by
  rw [alignPieces_planned content ids hle, ← clip_overlapping start hstop, flatMap_assoc]
  refine flatMap_congr fun s hs => ?_
  have hov := (mem_filter.1 hs).2
  obtain ⟨e, he, hfollow, -⟩ := follow_alignedSegment parallel overlapping hov hle
  rw [(hfollow.bytes _ start stop).1]
  exact clip_rows hov _ (Nat.div_mul_le_self _ _) he

end Objects

/-! ## Pieces from the cache -/

/-- The blocks that the cache answers for a file with content `c` are blocks of it. -/
def Right (c : Bytes) (get : Nat → Option Bytes) : Prop := ∀ b d, get b = some d → d = blockOf c b

theorem lookupBlocks_eq (h : Right c get) {bs : List Nat} {blocks : List (Nat × Bytes)}
    (hb : lookupBlocks get bs = some blocks) : blocks = bs.map fun b => (b, blockOf c b) := by
  induction bs generalizing blocks with
  | nil =>
    cases hb
    rfl
  | cons b bs ih =>
    simp only [lookupBlocks] at hb
    split at hb
    · cases hb
    · next d hd =>
      obtain ⟨rest, hrest, rfl⟩ := map_eq_some_iff.1 hb
      rw [h b d hd, ih hrest, map_cons]

theorem flatMap_clipBlock {base : Nat} (hc : object.extract base (base + c.length) = c) (start stop b n : Nat) :
    (List.range' b n).flatMap (fun b => clipBlock base b (blockOf c b) start stop) =
      clip object start (stop + 1) (base + min c.length (b * blockRows * rowBytes))
        (base + min c.length ((b + n) * blockRows * rowBytes)) := by
  induction n generalizing b with
  | zero =>
    simp only [List.range'_zero, flatMap_nil, Nat.add_zero]
    exact (clip_eq_nil object (by omega)).symm
  | succ n ih =>
    have hblock := clipBlock_rowsOf hc b (b * blockRows + blockRows) start stop (Nat.le_add_right _ _)
    have hnext : b * blockRows + blockRows = (b + 1) * blockRows := (Nat.succ_mul _ _).symm
    have hmono : b * blockRows * rowBytes ≤ (b + 1) * blockRows * rowBytes :=
      Nat.mul_le_mul_right _ (Nat.mul_le_mul_right _ (Nat.le_succ b))
    have hmono' : (b + 1) * blockRows * rowBytes ≤ (b + 1 + n) * blockRows * rowBytes :=
      Nat.mul_le_mul_right _ (Nat.mul_le_mul_right _ (Nat.le_add_right _ _))
    rw [List.range'_succ, flatMap_cons, ih, blockOf, hblock, hnext, show b + (n + 1) = b + 1 + n by omega]
    exact clip_append object start (stop + 1) (by omega) (by omega)

theorem flatten_filter_pos (parts : List Bytes) : (parts.filter fun part => 0 < part.length).flatten = parts.flatten := by
  induction parts with
  | nil => rfl
  | cons part parts ih =>
    cases part with
    | nil | cons => simp [ih]

theorem flatten_pieceParts_blocks (hc : object.extract p.base (p.base + c.length) = c) (hle : p.lo ≤ p.hi)
    (hget : Right c get) {start stop : Nat} (h : pieceParts get p start stop = some parts) :
    parts.flatten = clip object start (stop + 1) (p.base + min c.length (p.lo / blockRows * blockRows * rowBytes))
      (p.base + min c.length ((p.hi / blockRows + 1) * blockRows * rowBytes)) := by
  obtain ⟨blocks, hblocks, rfl⟩ := map_eq_some_iff.1 h
  rw [lookupBlocks_eq hget hblocks, flatten_filter_pos, List.map_map, ← flatMap_def]
  refine (flatMap_clipBlock hc start stop _ _).trans ?_
  have hdiv : p.lo / blockRows ≤ p.hi / blockRows := Nat.div_le_div_right hle
  rw [show p.lo / blockRows + (p.hi / blockRows + 1 - p.lo / blockRows) = p.hi / blockRows + 1 by omega]

/-- An aligned piece that the cache has is made up of its blocks. -/
theorem flatten_pieceParts (hs : p.segLen = c.length)
    (hc : object.extract p.base (p.base + c.length) = c) (hal : p.Aligned) (hle : p.lo ≤ p.hi) (hin : p.lo * rowBytes < c.length)
    (hget : Right c get) {start stop : Nat} (h : pieceParts get p start stop = some parts) :
    parts.flatten = p.bytes object start stop := by
  have hrows : blockRows = 32 := rfl
  obtain ⟨hlo, hhi⟩ := hal
  have hfirst : p.lo / blockRows * blockRows = p.lo := by
    have := Nat.div_add_mod p.lo blockRows
    rw [Nat.mul_comm]
    omega
  rw [flatten_pieceParts_blocks hc hle hget h, hfirst, Piece.bytes, Piece.from, Piece.upTo, hs, Nat.min_eq_right hin.le]
  refine congrArg (fun e => clip object start (stop + 1) (p.base + p.lo * rowBytes) (p.base + e)) ?_
  -- the last block ends where the piece does, or the file does
  rcases hhi with hhi | hhi
  · have hlast : (p.hi / blockRows + 1) * blockRows = p.hi + 1 := by
      rw [hrows] at hhi ⊢
      omega
    rw [hlast]
  · have hend : c.length ≤ (p.hi + 1) * rowBytes := by
      rw [hhi, hs]
      exact le_rows _
    have hmono : (p.hi + 1) * rowBytes ≤ (p.hi / blockRows + 1) * blockRows * rowBytes :=
      Nat.mul_le_mul_right _ (by rw [hrows]; omega)
    rw [Nat.min_eq_left hend, Nat.min_eq_left (hend.trans hmono)]

end Pgvs3.Codec
