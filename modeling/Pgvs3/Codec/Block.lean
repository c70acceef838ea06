import Pgvs3.Data.Bytes
/-!
# Rows of a file, compressed or not

A stored row is the compressed text or the text itself; only its length tells which. The compressor
is outside of the repository and enters as `Zstd`.
-/

namespace Pgvs3.Codec

/-- `RowBytes` (`store/write.go:27`). -/
def rowBytes : Nat := 8120

/-- `MaxInlineBytes` (`store/write.go:29`). -/
def maxInlineBytes : Nat := 65536

/-- The compressor: what is encoded decodes to the same bytes, and no frame decodes to no bytes. -/
structure Zstd where
  encodeAll : Bytes → Bytes
  decodeAll : Bytes → Option Bytes
  decode_encode : ∀ x, decodeAll (encodeAll x) = some x
  decode_nil : decodeAll [] = some []

def Zstd.plain : Zstd := ⟨id, some, fun _ => rfl, rfl⟩

inductive ReadError where
  | rowBeyond (no segLen : Nat)
  | storedLonger (stored logical : Nat)
  | corruptZstd
  | decodedLength (decoded want : Nat)
  | rowMissing (fileID : Int64) (lo hi no : Nat)
  | outside (start stop size : Nat)
  | incompleteManifest
  | invalidManifest
  | invalidOffsets
  | unexpectedEOF
  | invalidRange
deriving DecidableEq, Repr

/-- More than 200 different bytes among the first 512 (`store/object.go:1461-1473`). -/
def likelyIncompressible (src : Bytes) : Bool :=
  let sample := 512
  200 < ((src.take sample).foldl (fun seen b => if b ∈ seen then seen else b :: seen) []).length

/-- `store/object.go:1441-1459`. -/
def compressBlock (z : Zstd) (src : Bytes) : Bytes :=
  let n := src.length
  if n < 16 ∨ maxInlineBytes < n then src
  else if likelyIncompressible src then src
  else
    let dst := z.encodeAll src
    if n ≤ dst.length then src else dst

/-- `store/object.go:1475-1498`. -/
def decompressBlock (z : Zstd) (src : Bytes) (wantLen : Nat) : Except ReadError Bytes :=
  if wantLen = 0 then .ok []
  else if src.length = wantLen then .ok src
  else if wantLen < src.length then .error (.storedLonger src.length wantLen)
  else
    match z.decodeAll src with
    | none => .error .corruptZstd
    | some out => if out.length ≠ wantLen then .error (.decodedLength out.length wantLen) else .ok out

/-- `store/object.go:779-785`. -/
def decodeRow (z : Zstd) (segLen no : Nat) (stored : Bytes) : Except ReadError Bytes :=
  let want : Int := min (rowBytes : Int) (segLen - no * rowBytes)
  if want < 0 then .error (.rowBeyond no segLen) else decompressBlock z stored want.toNat

variable (z : Zstd)

theorem compressBlock_cases (src : Bytes) :
    compressBlock z src = src ∨ (compressBlock z src = z.encodeAll src ∧ (z.encodeAll src).length < src.length) := by
  simp only [compressBlock]
  split
  · exact .inl rfl
  · split
    · exact .inl rfl
    · split
      · exact .inl rfl
      · exact .inr ⟨rfl, by omega⟩

theorem encodeAll_ne_nil {src : Bytes} (h : src ≠ []) : z.encodeAll src ≠ [] := by
  intro hnil
  have hd := z.decode_encode src
  rw [hnil, z.decode_nil] at hd
  exact h (Option.some.inj hd).symm

theorem compressBlock_ne_nil {src : Bytes} (h : src ≠ []) : compressBlock z src ≠ [] := by
  rcases compressBlock_cases z src with he | ⟨he, _⟩
  · rwa [he]
  · rw [he]
    exact encodeAll_ne_nil z h

theorem length_compressBlock_le (src : Bytes) : (compressBlock z src).length ≤ src.length := by
  rcases compressBlock_cases z src with he | ⟨he, hlt⟩
  · rw [he]
  · rw [he]
    exact hlt.le

theorem decompressBlock_compressBlock (src : Bytes) : decompressBlock z (compressBlock z src) src.length = .ok src := by
  by_cases h0 : src.length = 0
  · rw [List.length_eq_zero_iff.1 h0]
    rfl
  · rcases compressBlock_cases z src with he | ⟨he, hlt⟩
    · simp [decompressBlock, he, h0]
    · simp only [decompressBlock, he, h0, if_false]
      rw [if_neg (by omega), if_neg (by omega), z.decode_encode]
      simp

end Pgvs3.Codec
