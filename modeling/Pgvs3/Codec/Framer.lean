import Pgvs3.Codec.Block
import Pgvs3.Data.CopyFormat
/-!
# Writing a file: the row framer

`push` takes bytes in any portions, keeps a row that is not yet full in `pending`, and hands its
buffer over when it is large enough. Digests and pooled buffers are left out.
-/

namespace Pgvs3.Codec

open List Option

def copyHeader : Bytes :=
  [0x50, 0x47, 0x43, 0x4F, 0x50, 0x59, 0x0A, 0xFF, 0x0D, 0x0A, 0x00, 0x00, 0x00, 0x00, 0x00, 0x00, 0x00, 0x00, 0x00]

def copyTrailer : Bytes := [0xFF, 0xFF]

def sendBatch : Nat := 4 * 2 ^ 20

/-- `write.go:153-162`. -/
structure RowFramer where
  fileID : Int64
  no : Int32
  pending : Bytes
  buf : Bytes
  size : Nat

/-- `write.go:164-174`. -/
def newRowFramer (fileID : Int64) : RowFramer := ⟨fileID, 0, [], copyHeader, 0⟩

namespace RowFramer

variable (z : Zstd)

/-- The body of the loop in `frameRows`: one tuple of three fields. -/
def frameRow (f : RowFramer) (row : Bytes) : RowFramer :=
  let payload := compressBlock z row
  { f with
    buf := f.buf ++ [0, 3] ++ ([0, 0, 0, 8] ++ bigEndian 8 f.fileID.toUInt64.toNat) ++
      ([0, 0, 0, 4] ++ bigEndian 4 f.no.toUInt32.toNat) ++
      (bigEndian 4 payload.length ++ payload)
    no := f.no + 1 }

/-- `write.go:225-247`. -/
def frameRows (f : RowFramer) (data : Bytes) : RowFramer := (cut rowBytes data).foldl (frameRow z) f

/-- The largest size of a file: as many rows as an `int4` numbers. -/
def limit : Nat := (2 ^ 31 - 1 + 1) * rowBytes

/-- `push`: the buffer it hands over, if any; `none` when the file would get too long
(`write.go:176-207`). -/
def push (f : RowFramer) (src : Bytes) : Option (Option Bytes × RowFramer) :=
  if (limit : Int) - f.size < src.length then none
  else
    let f := { f with size := f.size + src.length }
    let need := rowBytes - f.pending.length
    if 0 < f.pending.length ∧ src.length < need then some (none, { f with pending := f.pending ++ src })
    else
      let (f, src) :=
        if 0 < f.pending.length then ({ frameRows z f (f.pending ++ src.take need) with pending := [] }, src.drop need)
        else (f, src)
      let whole := src.length - src.length % rowBytes
      let f := if 0 < whole then frameRows z f (src.take whole) else f
      let f := { f with pending := f.pending ++ src.drop whole }
      if f.buf.length < sendBatch then some (none, f) else some (some f.buf, { f with buf := [] })

/-- `write.go:209-218`. -/
def finish (f : RowFramer) : Bytes :=
  let f := if 0 < f.pending.length then frameRows z f f.pending else f
  f.buf ++ copyTrailer

/-- Push after push; what they hand over, in order. -/
def pushAll : RowFramer → List Bytes → Option (Bytes × RowFramer)
  | f, [] => some ([], f)
  | f, src :: rest => do
    let (out, f) ← push z f src
    let (outs, f) ← pushAll f rest
    return (out.getD [] ++ outs, f)

end RowFramer

/-- All that a file's writer sends for the given pushes. -/
def frameFile (z : Zstd) (fileID : Int64) (pushes : List Bytes) : Option Bytes := do
  let (out, f) ← (newRowFramer fileID).pushAll z pushes
  return out ++ f.finish z

/-! ## The rows of the stream -/

/-- `schema.sql:352-358`. -/
structure ChunkRow where
  fileID : Int64
  no : Int32
  data : Bytes
deriving DecidableEq, Repr

/-- A tuple as the columns `(file_id int8, no int4, data bytea)`. -/
def chunkRow : List CopyField → Option ChunkRow
  | [some a, some b, some c] =>
    if a.length = 8 ∧ b.length = 4 then some ⟨.ofNat (ofBigEndian a), .ofNat (ofBigEndian b), c⟩ else none
  | _ => none

/-- The rows that `COPY chunks FROM STDIN` adds (`write.go:436-450`). -/
def copyRows (bs : Bytes) : Option (List ChunkRow) := do (← parseCopy bs).mapM chunkRow

def storedRow (z : Zstd) (fileID : Int64) (i : Nat) (row : Bytes) : ChunkRow := ⟨fileID, .ofNat i, compressBlock z row⟩

def storedRows (z : Zstd) (fileID : Int64) (content : Bytes) : List ChunkRow :=
  (cut rowBytes content).mapIdx (storedRow z fileID)

def ChunkRow.fields (r : ChunkRow) : List Bytes :=
  [bigEndian 8 r.fileID.toUInt64.toNat, bigEndian 4 r.no.toUInt32.toNat, r.data]

theorem chunkRow_fields (r : ChunkRow) : chunkRow (r.fields.map some) = some r := by
  have hid : ofBigEndian (bigEndian 8 r.fileID.toUInt64.toNat) = r.fileID.toUInt64.toNat :=
    ofBigEndian_bigEndian (UInt64.toNat_lt _)
  have hno : ofBigEndian (bigEndian 4 r.no.toUInt32.toNat) = r.no.toUInt32.toNat :=
    ofBigEndian_bigEndian (UInt32.toNat_lt _)
  have hid' : Int64.ofNat r.fileID.toUInt64.toNat = r.fileID := Int64.toBitVec_inj.1 (by simp [Int64.toBitVec_ofNat'])
  have hno' : Int32.ofNat r.no.toUInt32.toNat = r.no := Int32.toBitVec_inj.1 (by simp [Int32.toBitVec_ofNat'])
  simp [ChunkRow.fields, chunkRow, hid, hno, hid', hno']

theorem mapM_chunkRow (rows : List ChunkRow) : (rows.map fun r => r.fields.map some).mapM chunkRow = some rows := by
  induction rows with
  | nil => rfl
  | cons r rows ih => simp [mapM_cons, chunkRow_fields, ih]

theorem storedRows_append (z : Zstd) (fileID : Int64) {a b : Bytes} (hd : rowBytes ∣ a.length) : storedRows z fileID (a ++ b) =
      storedRows z fileID a ++ (cut rowBytes b).mapIdx fun i => storedRow z fileID (a.length / rowBytes + i) := by
  obtain ⟨k, hk⟩ := hd
  have hlen : (cut rowBytes a).length = a.length / rowBytes := by
    rw [length_cut_of_dvd (by decide) (hk.trans (Nat.mul_comm _ _)), hk, Nat.mul_div_cancel_left _ (by decide)]
  simp only [storedRows, cut_append (by decide : 0 < rowBytes) ⟨k, hk⟩, mapIdx_append, hlen, Nat.add_comm]

/-! ## What each step adds to the stream -/

namespace RowFramer

variable {z : Zstd} {f : RowFramer}

theorem frameRow_eq (f : RowFramer) (row : Bytes) : f.frameRow z row =
    { f with buf := f.buf ++ tupleBytes (ChunkRow.mk f.fileID f.no (compressBlock z row)).fields, no := f.no + 1 } := by
  have h2 : bigEndian 2 3 = [0, 3] := by decide
  have h8 : bigEndian 4 8 = [0, 0, 0, 8] := by decide
  have h4 : bigEndian 4 4 = [0, 0, 0, 4] := by decide
  simp [frameRow, tupleBytes, ChunkRow.fields, fieldBytes, h2, h8, h4]

theorem foldl_frameRow (rows : List Bytes) {k : Nat} (hk : f.no = .ofNat k) : rows.foldl (frameRow z) f = { f with
      buf := f.buf ++ ((rows.mapIdx fun i => storedRow z f.fileID (k + i)).map fun r => tupleBytes r.fields).flatten
      no := .ofNat (k + rows.length) } := by
  induction rows generalizing f k with
  | nil =>
    cases f
    simp_all
  | cons row rows ih =>
    have hno : (f.frameRow z row).no = .ofNat (k + 1) := by
      rw [frameRow_eq, hk]
      exact (Int32.ofNat_add k 1).symm
    rw [foldl_cons, ih hno, frameRow_eq]
    simp only [hk, storedRow, mapIdx_cons, map_cons, flatten_cons, append_assoc, length_cons,
      Nat.add_zero, Nat.add_comm, Nat.add_left_comm]

/-- Between two pushes: `out` has been handed over, `done` is in whole rows in the stream, the rest
is pending. -/
structure Framed (z : Zstd) (fileID : Int64) (out done : Bytes) (f : RowFramer) : Prop where
  id_eq : f.fileID = fileID
  dvd : rowBytes ∣ done.length
  no : f.no = .ofNat (done.length / rowBytes)
  stream : out ++ f.buf = copyHeader ++ ((storedRows z fileID done).map fun r => tupleBytes r.fields).flatten

variable {fileID : Int64} {out done : Bytes}

theorem framed_new (z : Zstd) (fileID : Int64) : Framed z fileID [] [] (newRowFramer fileID) :=
  ⟨rfl, ⟨0, rfl⟩, rfl, by simp [newRowFramer, storedRows]⟩

theorem Framed.of_eq {f' : RowFramer} (h : Framed z fileID out done f) (hid : f'.fileID = f.fileID) (hno : f'.no = f.no)
    (hbuf : f'.buf = f.buf) : Framed z fileID out done f' :=
  ⟨hid.trans h.id_eq, h.dvd, hno.trans h.no, by rw [hbuf, h.stream]⟩

theorem Framed.frameRows_buf (h : Framed z fileID out done f) (data : Bytes) : out ++ (f.frameRows z data).buf =
    copyHeader ++ ((storedRows z fileID (done ++ data)).map fun r => tupleBytes r.fields).flatten := by
  rw [frameRows, foldl_frameRow _ h.no, storedRows_append z fileID h.dvd]
  simp only [← append_assoc, h.stream, h.id_eq, map_append, flatten_append]

theorem Framed.frameRows (h : Framed z fileID out done f) {data : Bytes} (hd : rowBytes ∣ data.length) :
    Framed z fileID out (done ++ data) (f.frameRows z data) := by
  obtain ⟨k, hk⟩ := hd
  refine ⟨?_, ?_, ?_, h.frameRows_buf data⟩
  · rw [RowFramer.frameRows, foldl_frameRow _ h.no]
    exact h.id_eq
  · rw [length_append]
    exact Nat.dvd_add h.dvd ⟨k, hk⟩
  · have hlen : (cut rowBytes data).length = k := length_cut_of_dvd (by decide) (hk.trans (Nat.mul_comm _ _))
    rw [RowFramer.frameRows, foldl_frameRow _ h.no, hlen, length_append, hk, Nat.add_mul_div_left _ _ (by decide)]

theorem frameRows_other (f : RowFramer) (data : Bytes) :
    (f.frameRows z data).pending = f.pending ∧ (f.frameRows z data).size = f.size := by
  rw [frameRows]
  generalize cut rowBytes data = rows
  induction rows generalizing f with
  | nil => exact ⟨rfl, rfl⟩
  | cons row rows ih =>
    rw [foldl_cons]
    exact ih (f.frameRow z row)

theorem Framed.rest (h : Framed z fileID out done f) (hp : f.pending = []) (src : Bytes) :
    let whole := src.length - src.length % rowBytes
    let f' := if 0 < whole then f.frameRows z (src.take whole) else f
    Framed z fileID out (done ++ src.take whole) f' ∧ f'.pending = [] ∧ f'.size = f.size ∧ (src.drop whole).length < rowBytes := by
  have hmod : src.length % rowBytes < rowBytes := Nat.mod_lt _ (by decide)
  have hle := Nat.mod_le src.length rowBytes
  have hdrop : (src.drop (src.length - src.length % rowBytes)).length < rowBytes := by
    rw [length_drop]
    omega
  by_cases hw : 0 < src.length - src.length % rowBytes
  · have hd : rowBytes ∣ (src.take (src.length - src.length % rowBytes)).length := by
      rw [length_take, Nat.min_eq_left (by omega)]
      exact Nat.dvd_sub_mod _
    simp only [hw, if_true]
    obtain ⟨hpend, hsize⟩ := frameRows_other f (src.take (src.length - src.length % rowBytes))
    exact ⟨h.frameRows hd, hpend.trans hp, hsize, hdrop⟩
  · have h0 : src.length - src.length % rowBytes = 0 := by omega
    rw [h0] at hdrop
    simp only [h0, Nat.lt_irrefl, if_false, take_zero, append_nil]
    exact ⟨h, hp, trivial, hdrop⟩

/-- The framer has taken the bytes `all` and handed over `out`. -/
def Ready (z : Zstd) (fileID : Int64) (out all : Bytes) (f : RowFramer) : Prop :=
  ∃ done, Framed z fileID out done f ∧ f.pending.length < rowBytes ∧ done ++ f.pending = all ∧ f.size = all.length

variable {all src : Bytes} {pushes : List Bytes}

theorem Framed.handOver (h : Framed z fileID out done f) {rest : Bytes} (hr : rest.length < rowBytes)
    (hs : f.size = (done ++ rest).length) :
    let f' := { f with pending := rest }
    ∃ o g, (if f'.buf.length < sendBatch then some (none, f') else some (some f'.buf, { f' with buf := [] })) = some (o, g) ∧
      Ready z fileID (out ++ o.getD []) (done ++ rest) g := by
  by_cases hb : f.buf.length < sendBatch
  · refine ⟨none, { f with pending := rest }, if_pos hb, done, ?_, hr, rfl, hs⟩
    rw [getD_none, append_nil]
    exact h.of_eq rfl rfl rfl
  · exact ⟨some f.buf, { f with pending := rest, buf := [] }, if_neg hb, done,
      ⟨h.id_eq, h.dvd, h.no, by simpa using h.stream⟩, hr, rfl, hs⟩

section

variable (h : Ready z fileID out all f)
include h

/-- A push takes all of `src`, or refuses a file that would get too long. -/
theorem Ready.push (hle : (all ++ src).length ≤ limit) :
    ∃ o g, f.push z src = some (o, g) ∧ Ready z fileID (out ++ o.getD []) (all ++ src) g := by
  obtain ⟨done, hf, hp, rfl, hs⟩ := h
  simp only [length_append] at hle hs
  have hsize : ¬ (limit : Int) - f.size < src.length := by omega
  simp only [RowFramer.push, if_neg hsize]
  by_cases hpend : 0 < f.pending.length
  · by_cases hneed : src.length < rowBytes - f.pending.length
    · -- the row in `pending` does not get full
      rw [if_pos ⟨hpend, hneed⟩]
      refine ⟨none, _, rfl, done, ?_, ?_, ?_, ?_⟩
      · rw [getD_none, append_nil]
        exact hf.of_eq rfl rfl rfl
      · simp only [length_append]
        omega
      · simp only [append_assoc]
      · simp only [length_append]
        omega
    · -- it gets full, and the rest of `src` follows it
      rw [if_neg fun hc => hneed hc.2]
      simp only [hpend, if_true]
      generalize hneed' : rowBytes - f.pending.length = need at hneed ⊢
      have hrow : (f.pending ++ src.take need).length = rowBytes := by
        rw [length_append, length_take, Nat.min_eq_left (by omega)]
        omega
      have hdvd : rowBytes ∣ (f.pending ++ src.take need).length := ⟨1, by rw [hrow, Nat.mul_one]⟩
      have hf1 := (hf.of_eq rfl rfl rfl : Framed z fileID out done { f with size := f.size + src.length }).frameRows hdvd
      obtain ⟨-, hs1⟩ := frameRows_other (z := z) { f with size := f.size + src.length } (f.pending ++ src.take need)
      obtain ⟨hf2, hp2, hs2, hr⟩ := (hf1.of_eq rfl rfl rfl :
        Framed z fileID out _ { RowFramer.frameRows z { f with size := f.size + src.length } (f.pending ++ src.take need) with
          pending := [] }).rest rfl (src.drop need)
      have hall : done ++ (f.pending ++ src.take need) ++
          (src.drop need).take ((src.drop need).length - (src.drop need).length % rowBytes) ++
          (src.drop need).drop ((src.drop need).length - (src.drop need).length % rowBytes) = done ++ f.pending ++ src := by
        rw [append_assoc _ (List.take _ _), take_append_drop, ← append_assoc done, append_assoc (done ++ f.pending), take_append_drop]
      have hend := hf2.handOver hr (by
        rw [hs2, hall]
        simp only [hs1, length_append]
        omega)
      rw [hall] at hend
      simp only [hp2, nil_append]
      exact hend
  · -- nothing is pending
    have hp0 : f.pending = [] := length_eq_zero_iff.1 (by omega)
    rw [if_neg fun hc => hpend hc.1]
    simp only [hp0, length_nil, Nat.lt_irrefl, if_false, append_nil]
    obtain ⟨hf2, hp2, hs2, hr⟩ := (hf.of_eq rfl rfl rfl :
      Framed z fileID out done { f with pending := [], size := f.size + src.length }).rest rfl src
    have hall : done ++ src.take (src.length - src.length % rowBytes) ++ src.drop (src.length - src.length % rowBytes) = done ++ src := by
      rw [append_assoc, take_append_drop]
    have hend := hf2.handOver hr (by
      rw [hs2, hall]
      simp only [hs, hp0, length_nil, length_append, Nat.add_zero])
    rw [hall] at hend
    simp only [hp2, nil_append]
    exact hend

theorem Ready.refuses (hlt : limit < (all ++ src).length) : f.push z src = none := by
  obtain ⟨done, -, -, -, hs⟩ := h
  rw [length_append] at hlt
  rw [RowFramer.push, if_pos (by omega)]

theorem Ready.pushAll (hle : (all ++ pushes.flatten).length ≤ limit) :
    ∃ o g, f.pushAll z pushes = some (o, g) ∧ Ready z fileID (out ++ o) (all ++ pushes.flatten) g := by
  induction pushes generalizing f out all with
  | nil => exact ⟨[], f, rfl, by simpa using h⟩
  | cons src rest ih =>
    rw [flatten_cons, ← append_assoc] at hle ⊢
    have hsrc : (all ++ src).length ≤ limit := by
      rw [length_append] at hle
      omega
    obtain ⟨o, g, hpush, hg⟩ := h.push hsrc
    obtain ⟨o', g', hrest, hg'⟩ := ih hg hle
    refine ⟨o.getD [] ++ o', g', ?_, by rwa [← append_assoc]⟩
    simp only [RowFramer.pushAll, hpush, bind_eq_bind, bind_some, hrest]
    rfl

theorem Ready.pushAll_refuses (hall : all.length ≤ limit)
    (hlt : limit < (all ++ pushes.flatten).length) : f.pushAll z pushes = none := by
  induction pushes generalizing f out all with
  | nil =>
    rw [flatten_nil, append_nil] at hlt
    omega
  | cons src rest ih =>
    rw [flatten_cons, ← append_assoc] at hlt
    by_cases hsrc : (all ++ src).length ≤ limit
    · obtain ⟨o, g, hpush, hg⟩ := h.push hsrc
      simp only [RowFramer.pushAll, hpush, bind_eq_bind, bind_some, ih hg hsrc hlt, bind_none]
    · have hno : f.push z src = none := h.refuses (by omega)
      simp only [RowFramer.pushAll, hno, bind_eq_bind, bind_none]

theorem Ready.finish : out ++ f.finish z =
    copyHeader ++ ((storedRows z fileID all).map fun r => tupleBytes r.fields).flatten ++ copyTrailer := by
  obtain ⟨done, hf, -, rfl, -⟩ := h
  rw [RowFramer.finish, ← append_assoc]
  congr 1
  by_cases hp : 0 < f.pending.length
  · rw [if_pos hp]
    exact hf.frameRows_buf f.pending
  · have hp0 : f.pending = [] := length_eq_zero_iff.1 (by omega)
    rw [if_neg hp, hf.stream, hp0, append_nil]

end

end RowFramer

theorem frameFile_eq (z : Zstd) (fileID : Int64) (pushes : List Bytes) : frameFile z fileID pushes =
    if pushes.flatten.length ≤ RowFramer.limit then
      some (copyHeader ++ ((storedRows z fileID pushes.flatten).map fun r => tupleBytes r.fields).flatten ++ copyTrailer)
    else none := by
  have hnew : RowFramer.Ready z fileID [] [] (newRowFramer fileID) :=
    ⟨[], RowFramer.framed_new z fileID, by simp [newRowFramer, rowBytes], rfl, rfl⟩
  by_cases hle : pushes.flatten.length ≤ RowFramer.limit
  · have hall : ([] ++ pushes.flatten).length ≤ RowFramer.limit := by simpa using hle
    obtain ⟨o, g, hpush, hg⟩ := hnew.pushAll hall
    rw [if_pos hle, frameFile, hpush]
    have hend := hg.finish
    simp only [nil_append] at hend
    simp only [bind_eq_bind, bind_some, hend]
    rfl
  · rw [if_neg hle, frameFile, hnew.pushAll_refuses (by simp) (by simpa using hle)]
    rfl

variable {z : Zstd} {fileID : Int64}

theorem length_storedRows_data {content : Bytes} {r : ChunkRow} (h : r ∈ storedRows z fileID content) :
    1 ≤ r.data.length ∧ r.data.length ≤ rowBytes := by
  obtain ⟨i, hi, rfl⟩ := mem_mapIdx.1 h
  obtain ⟨hne, hle⟩ := mem_cut (by decide) (getElem_mem hi)
  exact ⟨length_pos_iff.2 (compressBlock_ne_nil z hne), (length_compressBlock_le z _).trans hle⟩

/-- The stream of a file reads back as its rows in order. -/
theorem copyRows_frameFile {pushes : List Bytes} {bs : Bytes} (h : frameFile z fileID pushes = some bs) :
    copyRows bs = some (storedRows z fileID pushes.flatten) := by
  rw [frameFile_eq] at h
  split at h
  · cases h
    have hfits : ∀ t ∈ (storedRows z fileID pushes.flatten).map ChunkRow.fields, Fits t := by
      intro t ht
      obtain ⟨r, hr, rfl⟩ := mem_map.1 ht
      have hdata := (length_storedRows_data hr).2
      refine ⟨by simp [ChunkRow.fields], fun x hx => ?_⟩
      simp only [ChunkRow.fields, mem_cons, not_mem_nil, or_false] at hx
      rcases hx with rfl | rfl | rfl
      · rw [length_bigEndian]; omega
      · rw [length_bigEndian]; omega
      · have hrow : rowBytes = 8120 := rfl
        omega
    have hparse := parseCopy_flatten hfits
    rw [List.map_map, List.map_map] at hparse
    have hheader : copyHeader = plainHeader := by decide
    have htrailer : copyTrailer = endMarker := rfl
    rw [copyRows, hheader, htrailer]
    have hfields : (tupleBytes ∘ ChunkRow.fields) = fun r => tupleBytes r.fields := rfl
    rw [hfields] at hparse
    rw [hparse]
    exact mapM_chunkRow _
  · cases h

end Pgvs3.Codec
