import Pgvs3.Data.Bytes
/-!
# CRC-64/NVME

A bit of the message is a shift of the remainder, with the polynomial added when a one leaves it. A
shift is linear (`shift_xor`), so `n` bits are `n` shifts of the remainder with the bits added
before (`foldl_bit_xor`), and eight shifts are the table's word of the low byte and the rest moved
down (`shifts_eight`).
-/

namespace Pgvs3.Ingest.Crc

open List BitVec

/-! ## Shifts -/

def poly : BitVec 64 := 0x9a6c9329ac4bc9b5#64

/-- The body of the loop that fills the first table. -/
def shift (crc : BitVec 64) : BitVec 64 := if crc &&& 1#64 ≠ 0#64 then (crc >>> 1) ^^^ poly else crc >>> 1

def shifts : Nat → BitVec 64 → BitVec 64
  | 0, crc => crc
  | n + 1, crc => shifts n (shift crc)

variable (crc : BitVec 64)

theorem shift_eq : shift crc = (crc >>> 1) ^^^ if crc.getLsbD 0 then poly else 0#64 := by
  have hbit : crc &&& 1#64 = setWidth 64 (ofBool (crc.getLsbD 0)) := and_one_eq_setWidth_ofBool_getLsbD
  rw [shift, hbit]
  cases crc.getLsbD 0 <;> simp

theorem shift_xor (x y : BitVec 64) : shift (x ^^^ y) = shift x ^^^ shift y := by
  simp only [shift_eq, getLsbD_xor, ushiftRight_xor_distrib]
  cases x.getLsbD 0 <;> cases y.getLsbD 0 <;> simp [BitVec.xor_assoc, BitVec.xor_comm poly]

theorem shifts_xor (n : Nat) (x y : BitVec 64) : shifts n (x ^^^ y) = shifts n x ^^^ shifts n y := by
  induction n generalizing x y with
  | zero => rfl
  | succ n ih => simp only [shifts, shift_xor, ih]

theorem shifts_add (m n : Nat) (x : BitVec 64) : shifts (m + n) x = shifts n (shifts m x) := by
  induction m generalizing x with
  | zero => simp [shifts]
  | succ m ih => rw [Nat.succ_add, shifts, shifts, ih]

/-- What has no ones to lose only moves down. -/
theorem shifts_low {n : Nat} {x : BitVec 64} (h : ∀ i < n, x.getLsbD i = false) : shifts n x = x >>> n := by
  induction n generalizing x with
  | zero => simp [shifts]
  | succ n ih =>
    have hshift : shift x = x >>> 1 := by rw [shift_eq, h 0 (Nat.succ_pos n)]; simp
    rw [shifts, hshift, ih fun i hi => by simpa using h (1 + i) (by omega), ← shiftRight_add, Nat.add_comm]

def low (x : BitVec 64) : BitVec 8 := x.setWidth 8

/-- Eight shifts: those of the low byte, and the rest moved down. -/
theorem shifts_eight (x : BitVec 64) : shifts 8 x = shifts 8 ((low x).setWidth 64) ^^^ (x >>> 8) := by
  have hsplit : x = (low x).setWidth 64 ^^^ (x >>> 8 <<< 8) := by
    ext i hi
    simp only [low, getElem_xor, getElem_setWidth, getLsbD_setWidth, getElem_shiftLeft, getElem_ushiftRight]
    by_cases h : i < 8
    · simp [h, hi]
    · simp [h, show 8 + (i - 8) = i by omega, hi]
  have hhigh : shifts 8 (x >>> 8 <<< 8) = x >>> 8 := by
    rw [shifts_low (by intro i hi; simp [hi])]
    ext i hi
    simpa using lt_of_getLsbD
  conv_lhs => rw [hsplit, shifts_xor, hhigh]

/-! ## The tables -/

/-- `tables[0][i]`. -/
def firstTable (i : BitVec 8) : BitVec 64 := shifts 8 (i.setWidth 64)

/-- `tables[k][i]`. -/
def crc64NVMETables : Nat → BitVec 8 → BitVec 64
  | 0, i => firstTable i
  | k + 1, i =>
    let crc := crc64NVMETables k i
    firstTable (low crc) ^^^ (crc >>> 8)

theorem tables_eq (k : Nat) (i : BitVec 8) : crc64NVMETables k i = shifts (8 * (k + 1)) (i.setWidth 64) := by
  induction k with
  | zero => rfl
  | succ k ih =>
    rw [crc64NVMETables, firstTable, ← shifts_eight, ih, ← shifts_add]
    rfl

/-- The low byte goes through all shifts, the rest through those that are left. -/
theorem shifts_byte (k : Nat) (x : BitVec 64) : shifts (8 * (k + 1)) x = crc64NVMETables k (low x) ^^^ shifts (8 * k) (x >>> 8) := by
  rw [tables_eq, Nat.mul_succ, Nat.add_comm, shifts_add, shifts_eight, shifts_xor, ← shifts_add]

/-! ## Writes -/

/-- `request.go:682-684`. -/
structure Crc64NVME where
  crc : BitVec 64
deriving DecidableEq, Repr

/-- `request.go:686`. -/
def newCRC64NVME : Crc64NVME := ⟨~~~0#64⟩

/-- `binary.LittleEndian.Uint64`. -/
def uint64 (p : Bytes) : BitVec 64 := p.foldr (fun b n => b.toBitVec.setWidth 64 ||| n <<< 8) 0#64

/-- Eight bytes at once: their number has been added to the remainder. -/
def slice (crc : BitVec 64) : BitVec 64 :=
  let t := crc64NVMETables
  t 7 (low crc) ^^^ t 6 (low (crc >>> 8)) ^^^ t 5 (low (crc >>> 16)) ^^^ t 4 (low (crc >>> 24)) ^^^
    t 3 (low (crc >>> 32)) ^^^ t 2 (low (crc >>> 40)) ^^^ t 1 (low (crc >>> 48)) ^^^ t 0 (low (crc >>> 56))

def byteStep (crc : BitVec 64) (b : UInt8) : BitVec 64 := crc64NVMETables 0 (low crc ^^^ b.toBitVec) ^^^ (crc >>> 8)

/-- The two loops of `Write`. -/
def writeLoop (crc : BitVec 64) (p : Bytes) : BitVec 64 :=
  if 8 ≤ p.length then writeLoop (slice (crc ^^^ uint64 (p.take 8))) (p.drop 8) else p.foldl byteStep crc
termination_by p.length
decreasing_by simp; omega

/-- `request.go:688-703`. -/
def Crc64NVME.write (c : Crc64NVME) (p : Bytes) : Crc64NVME := ⟨writeLoop c.crc p⟩

/-- `request.go:705`. -/
def Crc64NVME.sum64 (c : Crc64NVME) : BitVec 64 := c.crc ^^^ ~~~0#64

theorem slice_eq (x : BitVec 64) : slice x = shifts 64 x := by
  have h : shifts 64 x = shifts (8 * (7 + 1)) x := rfl
  rw [h, shifts_byte, shifts_byte 6, shifts_byte 5, shifts_byte 4, shifts_byte 3, shifts_byte 2, shifts_byte 1, shifts_byte 0]
  simp [slice, shifts, ← shiftRight_add, BitVec.xor_assoc, ushiftRight_eq_zero]

theorem byteStep_eq (b : UInt8) : byteStep crc b = shifts 8 (crc ^^^ b.toBitVec.setWidth 64) := by
  have hlow : low (crc ^^^ b.toBitVec.setWidth 64) = low crc ^^^ b.toBitVec := by simp [low]
  have hhigh : b.toBitVec.setWidth 64 >>> 8 = 0#64 := by
    ext i hi
    simp
  rw [shifts_eight, hlow, ushiftRight_xor_distrib, hhigh, BitVec.xor_zero]
  rfl

theorem uint64_high {p : Bytes} {i : Nat} (h : 8 * p.length ≤ i) : (uint64 p).getLsbD i = false := by
  induction p generalizing i with
  | nil => simp [uint64]
  | cons b p ih =>
    simp only [length_cons] at h
    have hb := getLsbD_of_ge b.toBitVec i (by omega)
    have hp := ih (i := i - 8) (by omega)
    simp_all [uint64]

/-- The bytes one by one, and all of them added before. -/
theorem foldl_byteStep {p : Bytes} (h : p.length ≤ 8) (crc : BitVec 64) :
    p.foldl byteStep crc = shifts (8 * p.length) (crc ^^^ uint64 p) := by
  induction p generalizing crc with
  | nil => simp [shifts, uint64]
  | cons b p ih =>
    simp only [length_cons] at h
    have hsplit : uint64 (b :: p) = b.toBitVec.setWidth 64 ^^^ (uint64 p <<< 8) := by
      ext i hi
      by_cases hb : i < 8
      · simp [uint64, hb]
      · simp [uint64, hb, getLsbD_of_ge b.toBitVec i (by omega)]
    have hdown : shifts 8 (uint64 p <<< 8) = uint64 p := by
      rw [shifts_low (by intro i hi; simp [hi])]
      ext i hi
      by_cases hb : 8 + i < 64
      · simp [hb]
      · have := uint64_high (p := p) (i := i) (by omega)
        simp_all
    rw [foldl_cons, ih (by omega), hsplit, length_cons, Nat.mul_succ, Nat.add_comm, shifts_add, ← BitVec.xor_assoc, shifts_xor 8,
      hdown, byteStep_eq]

theorem writeLoop_eq (p : Bytes) : writeLoop crc p = p.foldl byteStep crc := by
  fun_induction writeLoop crc p with
  | case1 crc p hp ih =>
    have htake : (p.take 8).length = 8 := by simp [hp]
    conv_rhs => rw [← take_append_drop 8 p, foldl_append, foldl_byteStep htake.le, htake]
    rw [ih, slice_eq]
  | case2 => rfl

/-! ## Bit by bit -/

/-- The polynomial of CRC-64/NVME, its bits reflected. -/
def reflected : BitVec 64 := (0xad93d23594c93659#64).reverse

def bit (crc : BitVec 64) (b : Bool) : BitVec 64 := if crc.getLsbD 0 ^^ b then (crc >>> 1) ^^^ reflected else crc >>> 1

def bitsOf (b : UInt8) : List Bool := (List.range 8).map b.toBitVec.getLsbD

/-- CRC-64/NVME of a message. -/
def crc64 (message : Bytes) : BitVec 64 := ~~~(message.flatMap bitsOf).foldl bit (~~~0#64)

theorem foldl_bit_xor (bs : List Bool) (x y : BitVec 64) : bs.foldl bit (x ^^^ y) = shifts bs.length x ^^^ bs.foldl bit y := by
  induction bs generalizing x y with
  | nil => rfl
  | cons b bs ih =>
    have hbit : bit (x ^^^ y) b = shift x ^^^ bit y b := by
      have hpoly : reflected = poly := by decide +kernel
      simp only [bit, hpoly, shift_eq, getLsbD_xor, ushiftRight_xor_distrib]
      cases x.getLsbD 0 <;> cases y.getLsbD 0 <;> cases b <;> simp [BitVec.xor_assoc, BitVec.xor_comm poly]
    rw [foldl_cons, hbit, ih]
    rfl

theorem foldl_bitsOf (b : UInt8) : (bitsOf b).foldl bit crc = byteStep crc b := by
  have hzero : ∀ b : BitVec 8, ((List.range 8).map b.getLsbD).foldl bit 0#64 = shifts 8 (b.setWidth 64) := by decide +kernel
  have h := foldl_bit_xor (bitsOf b) crc 0#64
  rw [BitVec.xor_zero] at h
  rw [h, byteStep_eq, shifts_xor, ← hzero]
  rfl

/-- **CRC-64/NVME.** The sum after any writes is the checksum of all that was written, bit by bit.
-/
theorem crc64NVME_exact (parts : List Bytes) : (parts.foldl Crc64NVME.write newCRC64NVME).sum64 = crc64 parts.flatten := by
  have hbits : ∀ (p : Bytes) (crc : BitVec 64), (p.flatMap bitsOf).foldl bit crc = p.foldl byteStep crc := by
    intro p
    induction p with
    | nil => exact fun _ => rfl
    | cons b p ih => simp [foldl_bitsOf, ih]
  have hparts : ∀ (parts : List Bytes) (c : Crc64NVME), (parts.foldl Crc64NVME.write c).crc = parts.flatten.foldl byteStep c.crc := by
    intro parts
    induction parts with
    | nil => exact fun _ => rfl
    | cons p parts ih => simp [ih, Crc64NVME.write, writeLoop_eq]
  rw [Crc64NVME.sum64, hparts, crc64, hbits]
  exact xor_allOnes

end Pgvs3.Ingest.Crc
