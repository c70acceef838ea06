import Pgvs3.Codec.RoundTrip
/-!
# Reads through the block cache

`Filled` is every content that the cache can get: blocks that a read has assembled
(`store/blockcache.go:319-346`), blocks of a file that was read whole (`cacheFile`, `:276-292`), and
what eviction leaves of them.

A part of 23 rows after one of 130 rows is enough for a failure (`short_part_read_fails`): the plan
cuts the part at rows 6, 12 and 18, the boundary at 18 moves to 32, and the reader of rows 0 to 31
misses row 23.
-/

namespace Pgvs3.Codec

open List Function

/-- `cacheFile` for a file that does not fit into one entry: block after block
(`blockcache.go:277-291`). -/
def cacheFile (content : Bytes) : List (Nat × Bytes) :=
  (cut (blockRows * rowBytes) content).mapIdx fun b d => (b, d)

/-- The contents of the block cache, given those of the files in each table. -/
inductive Filled (z : Zstd) (content : Nat → Int64 → Bytes) : (BlockKey → Option Bytes) → Prop
  | empty : Filled z content fun _ => none
  /-- A block assembled by a read. -/
  | put {cache : BlockKey → Option Bytes} (h : Filled z content cache) {table : Nat} {p : Piece}
      {rows : List RawRow} {contains : Nat → Bool} {start stop b : Nat} {d : Bytes}
      (hs : p.segLen = (content table p.fileID).length) (hle : p.lo ≤ p.hi)
      (hrows : Queried z (content table p.fileID) p rows)
      (hput : (b, d) ∈ (streamRows z contains true p start stop rows).puts) :
      Filled z content (update cache ⟨table, p.fileID, b⟩ (some d))
  /-- A block of a file that was read whole. -/
  | file {cache : BlockKey → Option Bytes} (h : Filled z content cache) {table : Nat} {id : Int64}
      {b : Nat} {d : Bytes} (hput : (b, d) ∈ cacheFile (content table id)) :
      Filled z content (update cache ⟨table, id, b⟩ (some d))
  | evict {cache : BlockKey → Option Bytes} (h : Filled z content cache) (k : BlockKey) :
      Filled z content (update cache k none)

variable {c d : Bytes} {z : Zstd}

theorem mem_cacheFile {b : Nat} (h : (b, d) ∈ cacheFile c) : d = blockOf c b := by
  obtain ⟨i, hi, heq⟩ := mem_mapIdx.1 h
  cases heq
  have hsome := (getElem?_eq_getElem hi).symm.trans (getElem?_cut (by decide) c b)
  split at hsome
  · rw [Option.some.inj hsome, blockOf, rowsOf, Nat.add_mul, Nat.mul_assoc]
  · cases hsome

/-- What a read puts into the cache are blocks of its file, wherever in the object the file is. -/
theorem puts_streamRows {p : Piece} {rows : List RawRow} (hs : p.segLen = c.length)
    (hle : p.lo ≤ p.hi) (hrows : Queried z c p rows) {contains : Nat → Bool} {fills : Bool}
    {start stop b : Nat} (h : (b, d) ∈ (streamRows z contains fills p start stop rows).puts) :
    d = blockOf c b := by
  have hc : (replicate p.base 0 ++ c).extract p.base (p.base + c.length) = c := by
    rw [extract_append_right _ (by simp), length_replicate, Nat.sub_self, Nat.add_sub_cancel_left,
      extract_all _ (le_refl _)]
  exact (streamRows_of hs hc hle hrows contains fills start stop).puts b d h

theorem update_all {κ β : Type} [DecidableEq κ] {P : κ → β → Prop} {f : κ → Option β} {k₀ : κ}
    {v : Option β} (hold : ∀ k d, f k = some d → P k d) (hnew : ∀ d, v = some d → P k₀ d) :
    ∀ k d, update f k₀ v k = some d → P k d := by
  intro k d hk
  by_cases heq : k = k₀
  · subst heq
    rw [update_self] at hk
    exact hnew d hk
  · rw [update_of_ne heq] at hk
    exact hold k d hk

theorem Filled.right {content : Nat → Int64 → Bytes} {cache : BlockKey → Option Bytes}
    (h : Filled z content cache) :
    ∀ k d, cache k = some d → d = blockOf (content k.table k.file) k.block := by
  induction h with
  | empty => exact nofun
  | put _ hs hle hrows hput ih =>
    refine update_all ih fun d' hd => ?_
    cases hd
    exact puts_streamRows hs hle hrows hput
  | file _ hput ih =>
    refine update_all ih fun d' hd => ?_
    cases hd
    exact mem_cacheFile hput
  | evict _ k ih => exact update_all ih nofun

/-- What the cache answers in the course of a read: what fills and evictions have made of it. -/
def FromCache (z : Zstd) (content : Nat → Int64 → Bytes) (table : Nat) (ans : Answers) : Prop :=
  ∀ p b d, ans.get p b = some d → ∃ cache, Filled z content cache ∧
    cache ⟨table, p.fileID, b⟩ = some d

/-- No aligned piece of the read reaches beyond its segment, unless the cache has all of it. -/
def Kept (ans : Answers) (m : Meta) (span : Span) (workers : Nat) : Prop :=
  ∀ pieces, planPieces m span.start.toNat span.stop.toNat workers = .ok pieces →
    ∀ p ∈ alignPieces pieces, p.inRange = true ∨
      pieceParts (ans.get p) p span.start.toNat span.stop.toNat ≠ none

section Read

variable {g : Gateway} {chunks : List ChunkRow} {content : Nat → Int64 → Bytes} {ids : List Int64}
    {ans : Answers} {m : Meta}

theorem Touching.cached {start stop : Nat}
    (h : Touching g.z chunks (content m.table) ids start stop ans) (hg : g.blocks = true)
    (ht : m.table ≠ 0) (hm : m.Describes (content m.table) ids)
    (hcache : FromCache g.z content m.table ans) (hle : start ≤ stop) (hstop : stop < m.size)
    (workers : Nat) :
    ∃ pieces b, planPieces m start stop workers = .ok pieces ∧
      startStream g ans m start stop workers = .ok b ∧ ∀ r, b.Ends r →
      (Served (lookupPieces ans (alignPieces pieces) start stop) ∧
        r = some ((ids.flatMap (content m.table)).extract start (stop + 1))) ∨
      (¬ Served (lookupPieces ans (alignPieces pieces) start stop) ∧ r = none) := by
  have hstop' : stop < (ids.flatMap (content m.table)).length := hm.1 ▸ hstop
  have hplan := planPieces_eq hm hle hstop workers
  have hbytes := bytes_aligned hle hstop' (max workers 1)
    (touched (content m.table) ids start stop).length
  have hall := alignPieces_planned (content m.table) ids hle (max workers 1)
    (touched (content m.table) ids start stop).length
  generalize (touched (content m.table) ids start stop).flatMap
    (segmentPieces start stop (max workers 1) (touched (content m.table) ids start stop).length) =
      pieces at hplan hbytes hall
  have hmap : (lookupPieces ans (alignPieces pieces) start stop).map (·.1) =
      alignPieces pieces := by
    rw [lookupPieces, List.map_map]
    exact map_id _
  refine ⟨pieces, opened g.z g.roomy ans start stop
    (lookupPieces ans (alignPieces pieces) start stop), hplan, ?_, fun r hr => ?_⟩
  · have htable : g.table m = m.table := by rw [Gateway.table, hg, if_pos rfl]
    simp only [startStream, hplan, htable]
    show (if _ then _ else _) = _
    rw [if_pos ht]
    rfl
  · have hends := ends_opened (ids.flatMap (content m.table)) (fun x hx => ?_)
      (by rw [hmap, hbytes]; exact extract_ne_nil hle hstop') hr
    · rwa [hmap, hbytes] at hends
    · obtain ⟨p, hp, rfl⟩ := mem_map.1 hx
      rw [hall] at hp
      obtain ⟨s, hs, hp⟩ := mem_flatMap.1 hp
      obtain ⟨hmem, hov⟩ := mem_filter.1 hs
      obtain ⟨e, -, hfollow, haligned⟩ := follow_alignedSegment _ _ hov hle
      have hin := hfollow.mem p hp
      have hholds := holds_segmentsOf [] ids s hmem
      have hlen : p.segLen = (content m.table p.fileID).length := by
        rw [hin.length_eq, hholds.length, hin.id_eq]
      -- the parts that the cache has are those of the piece
      refine h.fair hs hin g.roomy fun parts hparts => ?_
      refine flatten_pieceParts hlen ?_ (haligned p hp) hin.le (hlen ▸ hin.length_eq ▸ hin.lt)
        (fun b d hd => ?_) hparts
      · rw [← hlen, hin.length_eq, hin.base_eq, hin.id_eq]
        exact hholds.bytes
      · obtain ⟨cache, hfilled, hget⟩ := hcache p b d hd
        exact hfilled.right ⟨m.table, p.fileID, b⟩ d hget

theorem served_lookupPieces {pieces : List Piece} {start stop : Nat} :
    Served (lookupPieces ans pieces start stop) ↔
    ∀ p ∈ pieces, p.inRange = true ∨ pieceParts (ans.get p) p start stop ≠ none := by
  simp only [Served, lookupPieces, forall_mem_map]
  exact forall₂_congr fun p _ => or_comm

theorem Touching.reads_cached (g : Gateway) (content : Nat → Int64 → Bytes) {span : Span}
    (h : Touching g.z chunks (content m.table) ids span.start.toNat span.stop.toNat ans)
    (hg : g.blocks = true) (ht : m.table ≠ 0) (hm : m.Describes (content m.table) ids)
    (hcache : FromCache g.z content m.table ans) {rng : ByteRange}
    (hspan : rng.resolve m.size = some span) (workers : Nat) {r : Option Bytes}
    (hr : Reads g ans m rng workers r) :
    (Kept ans m span workers ∧
      r = some ((ids.flatMap (content m.table)).extract span.start.toNat (span.stop + 1).toNat)) ∨
      (¬ Kept ans m span workers ∧ r = none) := by
  by_cases hzero : m.size = 0
  · have hnil : (ids.flatMap (content m.table)) = [] := length_eq_zero_iff.1 (hm.1.symm.trans hzero)
    have hbody : bodyFromMeta g ans m rng workers = .ok (.static []) := by
      simp only [bodyFromMeta, hspan]
      rw [if_pos (.inl hzero)]
    simp only [Reads, hbody] at hr
    cases hr
    refine .inl ⟨fun pieces hplan => ?_, by simp [hnil]⟩
    -- an empty object has no segment to plan
    have htouch : (segmentsOf (content m.table) 0 ids).filter
        (·.overlaps span.start.toNat span.stop.toNat) = [] := by
      refine filter_eq_nil_iff.2 fun s hs hov => ?_
      have hpos := (Segment.overlaps_iff.1 hov).1
      have hlen : s.length = (content m.table s.fileID).length :=
        (holds_segmentsOf [] ids s hs).length
      have hempty := flatMap_eq_nil_iff.1 hnil s.fileID (fileID_segmentsOf hs)
      rw [hlen, hempty] at hpos
      cases hpos
    have hnone : planPieces m span.start.toNat span.stop.toNat workers =
        .error (.outside span.start.toNat span.stop.toNat m.size) := by
      simp only [planPieces, hm.segments]
      show (if _ then _ else _) = _
      rw [if_pos htouch]
      rfl
    cases hnone.symm.trans hplan
  · obtain ⟨h0, hle, hlt⟩ := ByteRange.resolve_bounds hspan (by omega)
    have hstop : (span.stop + 1).toNat = span.stop.toNat + 1 := by omega
    have hno : ¬ (m.size = 0 ∨ span.stop < span.start) := by omega
    have hle' : span.start.toNat ≤ span.stop.toNat := by omega
    have hlt' : span.stop.toNat < m.size := by omega
    obtain ⟨pieces, b, hplan, hb, hends⟩ := h.cached hg ht hm hcache hle' hlt' workers
    have hkept : Kept ans m span workers ↔
        Served (lookupPieces ans (alignPieces pieces) span.start.toNat span.stop.toNat) := by
      rw [served_lookupPieces]
      constructor
      · exact fun hk => hk pieces hplan
      · intro hs pieces' hplan'
        cases hplan.symm.trans hplan'
        exact hs
    simp only [Reads, bodyFromMeta, hspan, hno, if_false, hb] at hr
    rw [hkept, hstop]
    exact hends r hr

theorem exists_reads (g : Gateway) (ans : Answers) (m : Meta) (rng : ByteRange) (workers : Nat) :
    ∃ r, Reads g ans m rng workers r := by
  simp only [Reads]
  split
  · exact ⟨none, rfl⟩
  · next b _ => exact exists_ends b

end Read

/-- A read through the block cache has the bytes of the plain one exactly if no aligned piece that
the cache lacks reaches beyond its segment. -/
theorem cached_read_iff (g plain : Gateway) (chunks : List ChunkRow) (content : Nat → Int64 → Bytes)
    (ids : List Int64) (ans ans' : Answers) (m : Meta) (rng : ByteRange) (span : Span)
    (workers workers' : Nat) (hg : g.blocks = true) (ht : m.table ≠ 0)
    (hplain : plain.blocks = false) (hz : plain.z = g.z) (hm : m.Describes (content m.table) ids)
    (h : Holding g.z chunks (content m.table) ids ans)
    (h' : Holding g.z chunks (content m.table) ids ans')
    (hcache : FromCache g.z content m.table ans) (hspan : rng.resolve m.size = some span) :
    (∀ r, Reads g ans m rng workers r → r ≠ none ∧ Reads plain ans' m rng workers' r) ↔
      Kept ans m span workers := by
  have hread := fun r => ((hz ▸ h' : Holding plain.z _ _ _ _).touching _ _).reads_plain
    (table_of_plain hplain m) hm hspan workers' r
  constructor
  · intro hall
    obtain ⟨r, hr⟩ := exists_reads g ans m rng workers
    rcases (h.touching _ _).reads_cached g content hg ht hm hcache hspan workers
      hr with ⟨hk, -⟩ | ⟨-, hnone⟩
    · exact hk
    · exact absurd hnone (hall r hr).1
  · intro hk r hr
    rcases (h.touching _ _).reads_cached g content hg ht hm hcache hspan workers
      hr with ⟨-, hsome⟩ | ⟨hno, -⟩
    · exact ⟨by simp [hsome], (hread r).2 hsome⟩
    · exact absurd hk hno

def twoParts (id : Int64) : Bytes := if id = 1 then [1, 2, 3] else [4, 5]

def twoMeta : Meta := ⟨1, 5, some [1, 2], some [3, 5], 5⟩

/-- The block of the first part is in the cache, that of the second is not. -/
def twoAnswers : Answers where
  get p b := if p.fileID = 1 ∧ b = 0 then some [1, 2, 3] else none
  contains p b := p.fileID == 1 && b == 0
  rows := getRange ([1, 2].flatMap fun id => storedRows Zstd.plain id (twoParts id))

theorem parts_through_cache : planPieces twoMeta 0 4 4 = .ok [⟨1, 0, 3, 0, 0⟩, ⟨2, 3, 2, 0, 0⟩] ∧
    ∀ r, Reads ⟨Zstd.plain, true, true⟩ twoAnswers twoMeta .whole 4 r →
      r ≠ none ∧ Reads ⟨Zstd.plain, false, false⟩ { twoAnswers with get _ _ := none } twoMeta
        .whole 1 r := by
  have hlen : ∀ id, (twoParts id).length ≤ RowFramer.limit := fun id => by
    unfold twoParts
    split <;> simp [RowFramer.limit, rowBytes]
  have hstored : ∀ id ∈ [1, 2], Stored Zstd.plain
      ([1, 2].flatMap fun id => storedRows Zstd.plain id (twoParts id)) twoParts id :=
    fun id hid => stored_of_written _ _ (by decide) (fun id _ => hlen id) hid
  have hcache : FromCache Zstd.plain (fun _ => twoParts) 5 twoAnswers := by
    intro p b d hd
    obtain ⟨⟨hp, rfl⟩, rfl⟩ : (p.fileID = 1 ∧ b = 0) ∧ [1, 2, 3] = d := by
      simpa [twoAnswers] using hd
    exact ⟨update (fun _ => none) ⟨5, 1, 0⟩ (some [1, 2, 3]), .file .empty
      (by simp [cacheFile, twoParts, cut, blockRows, rowBytes]), by rw [hp, update_self]⟩
  have hplan : planPieces twoMeta 0 4 4 = .ok [⟨1, 0, 3, 0, 0⟩, ⟨2, 3, 2, 0, 0⟩] := by rfl
  refine ⟨hplan, (cached_read_iff ⟨Zstd.plain, true, true⟩ ⟨Zstd.plain, false, false⟩ _
    (fun _ => twoParts) [1, 2] _ _ twoMeta .whole ⟨0, 4, false⟩
    4 1 rfl (by decide) rfl rfl ⟨rfl, rfl, .inr ⟨rfl, rfl⟩⟩ ⟨hstored, fun _ => .refl _⟩
      ⟨hstored, fun _ => .refl _⟩ hcache (by decide)).2 ?_⟩
  intro pieces hp p hmem
  cases hplan.symm.trans hp
  exact .inl (by revert p; decide)

/-- The contents of a part of 130 rows and of one of 23. -/
def unevenParts (id : Int64) : Bytes := replicate ((if id = 1 then 130 else 23) * rowBytes) 0

def unevenMeta : Meta := ⟨1, 153 * rowBytes, some [1, 2], some [130 * rowBytes, 153 * rowBytes], 5⟩

/-- With an empty cache and eight workers, the read of an object of two parts fails. -/
theorem short_part_read_fails :
    ¬ ∀ (g plain : Gateway) (chunks : List ChunkRow) (content : Nat → Int64 → Bytes)
      (ids : List Int64) (ans ans' : Answers) (m : Meta) (rng : ByteRange) (span : Span)
        (workers workers' : Nat), g.blocks = true → m.table ≠ 0 →
      plain.blocks = false → plain.z = g.z → m.Describes (content m.table) ids →
      Holding g.z chunks (content m.table) ids ans → Holding g.z chunks (content m.table) ids ans' →
      FromCache g.z content m.table ans → rng.resolve m.size = some span →
      ∀ r, Reads g ans m rng workers r → r ≠ none ∧ Reads plain ans' m rng workers' r := by
  intro hclaim
  have hlen : ∀ id, (unevenParts id).length = (if id = 1 then 130 else 23) * rowBytes := fun id =>
    length_replicate
  have hm : unevenMeta.Describes unevenParts [1, 2] := by
    refine ⟨?_, rfl, .inr ⟨rfl, ?_⟩⟩
    · simp [hlen, unevenMeta, rowBytes]
    · simp [hlen, endsOf, unevenMeta, rowBytes]
  let chunks := [1, 2].flatMap fun id => storedRows Zstd.plain id (unevenParts id)
  let ans : Answers := ⟨fun _ _ => none, fun _ _ => false, getRange chunks⟩
  have hholding : Holding Zstd.plain chunks unevenParts [1, 2] ans := by
    refine ⟨fun id hid => stored_of_written _ _ (by decide) (fun id _ => ?_) hid, fun p => .refl _⟩
    rw [hlen]
    split <;> decide
  have hplan : planPieces unevenMeta 0 (153 * rowBytes - 1) 8 = .ok
      [⟨1, 0, 130 * rowBytes, 0, 32⟩, ⟨1, 0, 130 * rowBytes, 33, 65⟩,
        ⟨1, 0, 130 * rowBytes, 66, 98⟩, ⟨1, 0, 130 * rowBytes, 99, 129⟩, ⟨2, 130 * rowBytes,
        23 * rowBytes, 0, 5⟩, ⟨2, 130 * rowBytes, 23 * rowBytes, 6, 11⟩,
        ⟨2, 130 * rowBytes, 23 * rowBytes, 12, 17⟩,
        ⟨2, 130 * rowBytes, 23 * rowBytes, 18, 22⟩] := by rfl
  obtain ⟨r, hr⟩ := exists_reads ⟨Zstd.plain, true, true⟩ ans unevenMeta .whole 8
  have hspan : ByteRange.whole.resolve unevenMeta.size = some ⟨0, 153 * rowBytes - 1, false⟩ := by
    decide
  have hok := hclaim ⟨Zstd.plain, true, true⟩ ⟨Zstd.plain, false, false⟩ chunks
    (fun _ => unevenParts) [1, 2] ans ans unevenMeta .whole
    ⟨0, 153 * rowBytes - 1, false⟩ 8 8 rfl (by decide) rfl rfl hm hholding hholding
      (fun _ _ _ h => by cases h) hspan r hr
  rcases (hholding.touching _ _).reads_cached ⟨Zstd.plain, true, true⟩ (fun _ => unevenParts) rfl
    (by decide) hm (fun _ _ _ h => by cases h) hspan 8 hr with
    ⟨hk, -⟩ | ⟨-, hnone⟩
  · -- the second part's piece of rows 0 to 31
    have hpiece := hk _ hplan ⟨2, 130 * rowBytes, 23 * rowBytes, 0, 31⟩ (by decide)
    exact hpiece.elim (by decide) (absurd rfl)
  · exact hok.1 hnone

end Pgvs3.Codec
