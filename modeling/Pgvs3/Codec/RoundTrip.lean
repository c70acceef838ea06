import Pgvs3.Codec.Stream
/-!
# From a writer's pushes to a reader's bytes

`Stored` is what the rows of a file in the database are: those of the stream that its writer sent.
`getRange` is the query of a piece (`store/object.go:1102-1105`), which may return any permutation
of its rows.
-/

namespace Pgvs3.Codec

open Conc (Window)
open List

/-! ## Stored files -/

/-- `store/object.go:1102-1105`. -/
def getRange (chunks : List ChunkRow) (p : Piece) : List RawRow :=
  (chunks.filter fun r => r.fileID = p.fileID ∧ (p.lo : Int) ≤ r.no.toInt ∧ r.no.toInt ≤ (p.hi : Int)).map fun r =>
    (r.no.toInt.toNat, r.data)

/-- The rows of a file in `chunks` are those that its writer sent, in whatever portions it got the
content. -/
def Stored (z : Zstd) (chunks : List ChunkRow) (content : Int64 → Bytes) (id : Int64) : Prop :=
  ∃ pushes bs rows, pushes.flatten = content id ∧ frameFile z id pushes = some bs ∧ copyRows bs = some rows ∧
    (chunks.filter (·.fileID == id)).Perm rows

theorem toInt_ofNat {i : Nat} (h : i < 2 ^ 31) : (Int32.ofNat i).toInt = i := Int32.toInt_ofNat_of_lt h

theorem mem_storedRows {z : Zstd} {id : Int64} {c : Bytes} {r : ChunkRow} :
    r ∈ storedRows z id c ↔ ∃ i, i * rowBytes < c.length ∧ r = storedRow z id i (rowOf c i) := by
  have hget : ∀ i, (cut rowBytes c)[i]? = if i * rowBytes < c.length then some (rowOf c i) else none := fun i =>
    getElem?_cut (by decide) c i
  constructor
  · intro h
    obtain ⟨i, hi, rfl⟩ := mem_mapIdx.1 h
    have hsome := (getElem?_eq_getElem hi).symm.trans (hget i)
    split at hsome
    · next hlt => exact ⟨i, hlt, by rw [Option.some.inj hsome]⟩
    · cases hsome
  · rintro ⟨i, hi, rfl⟩
    have hsome := hget i
    rw [if_pos hi] at hsome
    obtain ⟨hlt, heq⟩ := List.getElem?_eq_some_iff.1 hsome
    exact mem_mapIdx.2 ⟨i, hlt, by rw [heq]⟩

theorem row_lt {c : Bytes} (hc : c.length ≤ RowFramer.limit) {i : Nat} (h : i * rowBytes < c.length) : i < 2 ^ 31 := by
  have : i * rowBytes < 2 ^ 31 * rowBytes := h.trans_le hc
  exact Nat.lt_of_mul_lt_mul_right this

theorem queried_of_stored {z : Zstd} {chunks : List ChunkRow} {content : Int64 → Bytes} {p : Piece} {rows : List RawRow}
    (h : Stored z chunks content p.fileID) (hrows : rows.Perm (getRange chunks p)) : Queried z (content p.fileID) p rows := by
  obtain ⟨pushes, bs, file, hpush, hframe, hcopy, hperm⟩ := h
  have hlimit : (content p.fileID).length ≤ RowFramer.limit := by
    rw [frameFile_eq, hpush] at hframe
    split at hframe
    · assumption
    · cases hframe
  have hfile : file = storedRows z p.fileID (content p.fileID) :=
    Option.some.inj (hcopy.symm.trans (hpush ▸ copyRows_frameFile hframe))
  have hmem : ∀ r, r ∈ chunks ∧ r.fileID = p.fileID ↔
      ∃ i, i * rowBytes < (content p.fileID).length ∧ r = storedRow z p.fileID i (rowOf (content p.fileID) i) := by
    intro r
    rw [← mem_storedRows, ← hfile, ← hperm.mem_iff, mem_filter, beq_iff_eq]
  intro no d
  rw [hrows.mem_iff, getRange, mem_map]
  constructor
  · rintro ⟨r, hr, heq⟩
    simp only [mem_filter, decide_eq_true_eq] at hr
    obtain ⟨hr, hid, hlo, hhi⟩ := hr
    obtain ⟨i, hi, rfl⟩ := (hmem r).1 ⟨hr, hid⟩
    simp only [storedRow, toInt_ofNat (row_lt hlimit hi)] at hlo hhi heq
    cases heq
    exact ⟨by omega, by omega, by simpa using hi, by simp⟩
  · rintro ⟨hlo, hhi, hin, rfl⟩
    refine ⟨storedRow z p.fileID no (rowOf (content p.fileID) no), ?_, ?_⟩
    · simp only [mem_filter, decide_eq_true_eq]
      refine ⟨((hmem _).2 ⟨no, hin, rfl⟩).1, rfl, ?_, ?_⟩
      · simp only [storedRow, toInt_ofNat (row_lt hlimit hin)]
        omega
      · simp only [storedRow, toInt_ofNat (row_lt hlimit hin)]
        omega
    · simp only [storedRow, toInt_ofNat (row_lt hlimit hin), Int.toNat_natCast]

/-! ## Reading it back -/

theorem fileID_segmentsOf {content : Int64 → Bytes} {prev : Nat} {ids : List Int64} {s : Segment} (h : s ∈ segmentsOf content prev ids) :
    s.fileID ∈ ids := by
  induction ids generalizing prev with
  | nil => cases h
  | cons id ids ih =>
    rcases mem_cons.1 h with rfl | h
    · exact mem_cons_self
    · exact mem_cons_of_mem _ (ih h)

/-- The files of an object are in the database, and the queries of a read return their rows. -/
structure Holding (z : Zstd) (chunks : List ChunkRow) (content : Int64 → Bytes) (ids : List Int64) (ans : Answers) : Prop where
  stored : ∀ id ∈ ids, Stored z chunks content id
  rows : ∀ p, (ans.rows p).Perm (getRange chunks p)

/-- The files that a span touches are in the database, and the queries of a read return their rows.
-/
structure Touching (z : Zstd) (chunks : List ChunkRow) (content : Int64 → Bytes) (ids : List Int64)
    (start stop : Nat) (ans : Answers) : Prop where
  stored : ∀ s ∈ touched content ids start stop, Stored z chunks content s.fileID
  rows : ∀ p, (ans.rows p).Perm (getRange chunks p)

section Read

variable {g : Gateway} {z : Zstd} {chunks : List ChunkRow} {content : Int64 → Bytes} {ids : List Int64} {ans : Answers} {start stop : Nat}

theorem Holding.touching (h : Holding z chunks content ids ans) (start stop : Nat) : Touching z chunks content ids start stop ans :=
  ⟨fun _ hs => h.stored _ (fileID_segmentsOf (mem_filter.1 hs).1), h.rows⟩

theorem Touching.fair (h : Touching z chunks content ids start stop ans) {s : Segment}
    (hs : s ∈ touched content ids start stop) {p : Piece} (hp : p.In s) (fills : Bool)
    {parts : Option (List Bytes)}
    (hparts : ∀ ps, parts = some ps → ps.flatten = p.bytes (ids.flatMap content) start stop) :
    Fair z fills ans (ids.flatMap content) start stop (p, parts) := by
  have hholds := holds_segmentsOf [] ids s (mem_filter.1 hs).1
  have hstored : Stored z chunks content p.fileID := hp.id_eq ▸ h.stored s hs
  have hlen : p.segLen = (content p.fileID).length := by rw [hp.length_eq, hholds.length, hp.id_eq]
  have hbytes : (ids.flatMap content).extract p.base (p.base + (content p.fileID).length) = content p.fileID := by
    rw [← hlen, hp.length_eq, hp.base_eq, hp.id_eq]
    exact hholds.bytes
  have hof := streamRows_of hlen hbytes hp.le (queried_of_stored hstored (h.rows p)) (ans.contains p) fills start stop
  have hpiece : clip (ids.flatMap content) start (stop + 1) (p.base + min (content p.fileID).length (p.lo * rowBytes))
      (p.base + min (content p.fileID).length ((p.hi + 1) * rowBytes)) = p.bytes (ids.flatMap content) start stop := by
    have hlt : p.lo * rowBytes < (content p.fileID).length := hlen ▸ hp.length_eq ▸ hp.lt
    rw [Nat.min_eq_right hlt.le, Piece.bytes, Piece.from, Piece.upTo, hlen]
  rw [hpiece] at hof
  refine ⟨hparts, ?_, hof.chunks⟩
  rw [Piece.inRange, decide_eq_true_eq, hlen]
  exact hof.error

theorem extract_ne_nil {object : Bytes} (hle : start ≤ stop) (hstop : stop < object.length) : object.extract start (stop + 1) ≠ [] := by
  intro hnil
  have hlen := length_extract object (a := start) (b := stop + 1)
  rw [hnil, length_nil] at hlen
  omega

theorem table_of_plain (hg : g.blocks = false) (m : Meta) : g.table m = 0 := by rw [Gateway.table, hg, if_neg Bool.false_ne_true]

/-- Without the cache every read has the bytes of its span. -/
theorem Touching.plain (h : Touching g.z chunks content ids start stop ans) {m : Meta} (hg : g.table m = 0) (hm : m.Describes content ids)
    (hle : start ≤ stop) (hstop : stop < m.size) (workers : Nat) :
    ∃ b, startStream g ans m start stop workers = .ok b ∧ ∀ r, b.Ends r → r = some ((ids.flatMap content).extract start (stop + 1)) := by
  have hstop' : stop < (ids.flatMap content).length := hm.1 ▸ hstop
  have hplan := planPieces_eq hm hle hstop workers
  have hbytes := bytes_planned hle hstop' (max workers 1) (touched content ids start stop).length
  generalize hps : (touched content ids start stop).flatMap
    (segmentPieces start stop (max workers 1) (touched content ids start stop).length) = pieces at hplan hbytes
  have hmap : (pieces.map fun p => (p, (none : Option (List Bytes)))).map (·.1) = pieces := by
    rw [List.map_map]
    exact map_id pieces
  refine ⟨opened g.z false ans start stop (pieces.map fun p => (p, none)), ?_, fun r hr => ?_⟩
  · simp only [startStream, hplan, hg, ne_eq, not_true, if_false]
    rfl
  · -- every piece is one of a segment that the span touches, and ends inside it
    have hin : ∀ p ∈ pieces, ∃ s ∈ touched content ids start stop, p.In s ∧ p.inRange = true := by
      intro p hp
      rw [← hps] at hp
      obtain ⟨s, hs, hp⟩ := mem_flatMap.1 hp
      obtain ⟨hmem, hov⟩ := mem_filter.1 hs
      have hpin := (follow_segmentPieces _ _ hov hle).mem p hp
      have hhi := hi_segmentPieces hov hle p hp
      exact ⟨s, hs, hpin, by rw [Piece.inRange, decide_eq_true_eq, hpin.length_eq]; exact hhi⟩
    have hends := ends_opened (ids.flatMap content) (fun x hx => ?_) (by rw [hmap, hbytes]; exact extract_ne_nil hle hstop') hr
    · rw [hmap, hbytes] at hends
      refine (hends.resolve_right fun hno => hno.1 fun x hx => ?_).2
      obtain ⟨p, hp, rfl⟩ := mem_map.1 hx
      obtain ⟨s, -, -, hrange⟩ := hin p hp
      exact .inr hrange
    · obtain ⟨p, hp, rfl⟩ := mem_map.1 hx
      obtain ⟨s, hs, hpin, -⟩ := hin p hp
      exact h.fair hs hpin false nofun

theorem Touching.reads_plain {span : Span} (h : Touching g.z chunks content ids span.start.toNat span.stop.toNat ans) {m : Meta}
    (hg : g.table m = 0) (hm : m.Describes content ids) {rng : ByteRange}
    (hspan : rng.resolve m.size = some span) (workers : Nat) (r : Option Bytes) :
    Reads g ans m rng workers r ↔ r = some ((ids.flatMap content).extract span.start.toNat (span.stop + 1).toNat) := by
  by_cases hzero : m.size = 0
  · -- nothing to read
    have hnil : (ids.flatMap content).extract span.start.toNat (span.stop + 1).toNat = [] := by
      rw [length_eq_zero_iff.1 (hm.1.symm.trans hzero)]
      simp
    have hbody : bodyFromMeta g ans m rng workers = .ok (.static []) := by
      simp only [bodyFromMeta, hspan]
      rw [if_pos (.inl hzero)]
    simp only [Reads, hbody, hnil]
    constructor
    · intro hr
      cases hr
      rfl
    · rintro rfl
      exact .static []
  · obtain ⟨h0, hle, hlt⟩ := ByteRange.resolve_bounds hspan (by omega)
    have hle' : span.start.toNat ≤ span.stop.toNat := by omega
    have hlt' : span.stop.toNat < m.size := by omega
    obtain ⟨b, hb, hends⟩ := h.plain hg hm hle' hlt' workers
    have hstop : (span.stop + 1).toNat = span.stop.toNat + 1 := by omega
    have hno : ¬ (m.size = 0 ∨ span.stop < span.start) := by omega
    simp only [Reads, bodyFromMeta, hspan, hno, if_false, hb, hstop]
    refine ⟨hends r, fun hr => ?_⟩
    obtain ⟨r', hr'⟩ := exists_ends b
    rwa [hr, ← hends r' hr']

end Read

/-- The streaming of a body does not go on forever, whatever the workers do. -/
def Body.Finite (b : Body) : Prop :=
  ∀ sources, b = .window sources → ∀ workers, WellFounded fun w' w => Window.Step sources workers channelRoom w w'

/-- Whatever the portions of its content, a writer's stream is a binary COPY of rows that are
numbered from 0 and fit into a page; and an object of such files reads back, for every range, worker
count, assignment of pieces and order of the rows. -/
theorem stored_object_reads_back : (∀ (z : Zstd) (fileID : Int64) (pushes : List Bytes),
      ((frameFile z fileID pushes).isSome ↔ pushes.flatten.length ≤ RowFramer.limit) ∧
      ∀ bs, frameFile z fileID pushes = some bs → ∃ rows, copyRows bs = some rows ∧
        ∀ (i : Nat) r, rows[i]? = some r → r.fileID = fileID ∧ r.no.toInt = i ∧ 1 ≤ r.data.length ∧ r.data.length ≤ 8120) ∧
    (∀ (g : Gateway) (chunks : List ChunkRow) (content : Int64 → Bytes) (ids : List Int64) (ans : Answers) (m : Meta) (rng : ByteRange)
      (span : Span) (workers : Nat), g.blocks = false → m.Describes content ids → Holding g.z chunks content ids ans →
      rng.resolve m.size = some span →
      (∃ b, bodyFromMeta g ans m rng workers = .ok b ∧ b.Finite) ∧
      (∃ r, Reads g ans m rng workers r) ∧
      ∀ r, Reads g ans m rng workers r → r = some ((ids.flatMap content).extract span.start.toNat (span.stop + 1).toNat)) := by
  refine ⟨fun z fileID pushes => ⟨?_, fun bs hbs => ?_⟩, fun g chunks content ids ans m rng span workers hg hm h hspan => ?_⟩
  · rw [frameFile_eq]
    split
    · next hle => exact iff_of_true rfl hle
    · next hle => exact iff_of_false nofun hle
  · refine ⟨_, copyRows_frameFile hbs, fun i r hr => ?_⟩
    have hdata := length_storedRows_data (mem_of_getElem? hr)
    have hlimit : pushes.flatten.length ≤ RowFramer.limit := by
      rw [frameFile_eq] at hbs
      split at hbs
      · assumption
      · cases hbs
    rw [storedRows, getElem?_mapIdx] at hr
    obtain ⟨row, hrow, rfl⟩ := Option.map_eq_some_iff.1 hr
    have hlt : i * rowBytes < pushes.flatten.length := by
      rw [getElem?_cut (by decide)] at hrow
      split at hrow
      · assumption
      · cases hrow
    exact ⟨rfl, toInt_ofNat (row_lt hlimit hlt), hdata.1, hdata.2⟩
  · have hiff := (h.touching _ _).reads_plain (table_of_plain hg m) hm hspan workers
    refine ⟨?_, ⟨_, (hiff _).2 rfl⟩, fun r => (hiff r).1⟩
    have hok := (hiff _).2 rfl
    simp only [Reads] at hok
    split at hok
    · cases hok
    · next b hb => exact ⟨b, hb, fun sources _ workers => Window.wellFounded_step sources workers channelRoom⟩

theorem filter_storedRows (z : Zstd) (id id' : Int64) (c : Bytes) :
    (storedRows z id c).filter (·.fileID == id') = if id = id' then storedRows z id c else [] := by
  have hid : ∀ r ∈ storedRows z id c, r.fileID = id := by
    intro r hr
    obtain ⟨i, -, rfl⟩ := mem_storedRows.1 hr
    rfl
  split
  · next heq => exact filter_eq_self.2 fun r hr => by simp [hid r hr, heq]
  · next hne => exact filter_eq_nil_iff.2 fun r hr => by simp [hid r hr, hne]

theorem stored_of_written (z : Zstd) (content : Int64 → Bytes) {ids : List Int64} (hnd : ids.Nodup)
    (hlimit : ∀ id ∈ ids, (content id).length ≤ RowFramer.limit) {id : Int64} (hid : id ∈ ids) :
    Stored z (ids.flatMap fun id => storedRows z id (content id)) content id := by
  have hframe : frameFile z id [content id] ≠ none := by
    rw [frameFile_eq, if_pos (by simpa using hlimit id hid)]
    nofun
  obtain ⟨bs, hbs⟩ := Option.ne_none_iff_exists'.1 hframe
  refine ⟨[content id], bs, _, by simp, hbs, copyRows_frameFile hbs, ?_⟩
  rw [show [content id].flatten = content id by simp]
  clear hbs hframe hlimit
  induction ids with
  | nil => cases hid
  | cons a ids ih =>
    obtain ⟨hnot, hnd⟩ := nodup_cons.1 hnd
    rw [flatMap_cons, filter_append, filter_storedRows]
    rcases mem_cons.1 hid with rfl | hid
    · have hnil : (ids.flatMap fun id => storedRows z id (content id)).filter (·.fileID == id) = [] := by
        refine filter_eq_nil_iff.2 fun r hr => ?_
        obtain ⟨b, hb, hr⟩ := mem_flatMap.1 hr
        obtain ⟨i, -, rfl⟩ := mem_storedRows.1 hr
        have hne : b ≠ id := fun heq => hnot (heq ▸ hb)
        simp [storedRow, hne]
      rw [if_pos rfl, hnil, append_nil]
    · have hne : ¬ a = id := by
        rintro rfl
        exact hnot hid
      rw [if_neg hne, nil_append]
      exact ih hnd hid

theorem holding_written (z : Zstd) (id : Int64) {c : Bytes} (hlimit : c.length ≤ RowFramer.limit) :
    Holding z (storedRows z id c) (fun _ => c) [id] ⟨fun _ _ => none, fun _ _ => false, getRange (storedRows z id c)⟩ := by
  refine ⟨fun id' hid => ?_, fun p => .refl _⟩
  have hst := stored_of_written z (fun _ => c) (nodup_singleton id) (fun _ _ => hlimit) hid
  simpa using hst

/-- A file of three bytes, pushed in two portions; bytes 1 and 2 of it. -/
theorem three_bytes_read_back : (∃ rows, copyRows ((frameFile Zstd.plain 7 [[1], [2, 3]]).getD []) = some rows ∧
      ∀ (i : Nat) r, rows[i]? = some r → r.fileID = 7 ∧ r.no.toInt = i ∧ 1 ≤ r.data.length ∧ r.data.length ≤ 8120) ∧
    (∃ r, Reads ⟨Zstd.plain, false, false⟩ ⟨fun _ _ => none, fun _ _ => false, getRange (storedRows Zstd.plain 7 [1, 2, 3])⟩
      ⟨7, 3, none, none, 0⟩ ⟨1, -1, -1, true⟩ 4 r) ∧
    ∀ r, Reads ⟨Zstd.plain, false, false⟩ ⟨fun _ _ => none, fun _ _ => false, getRange (storedRows Zstd.plain 7 [1, 2, 3])⟩
      ⟨7, 3, none, none, 0⟩ ⟨1, -1, -1, true⟩ 4 r → r = some [2, 3] := by
  obtain ⟨hwrite, hread⟩ := stored_object_reads_back
  have hholding := holding_written Zstd.plain 7 (c := [1, 2, 3]) (by simp [RowFramer.limit, rowBytes])
  obtain ⟨bs, hbs⟩ := Option.isSome_iff_exists.1 ((hwrite Zstd.plain 7 [[1], [2, 3]]).1.2 (by simp [RowFramer.limit, rowBytes]))
  refine ⟨?_, (hread ⟨Zstd.plain, false, false⟩ _ (fun _ => [1, 2, 3]) [7] _ ⟨7, 3, none, none, 0⟩ ⟨1, -1, -1, true⟩ ⟨1, 2, true⟩ 4 rfl
    ⟨rfl, rfl, .inl ⟨rfl, rfl, rfl⟩⟩ hholding (by decide)).2⟩
  rw [hbs]
  exact (hwrite Zstd.plain 7 [[1], [2, 3]]).2 bs hbs

end Pgvs3.Codec
