import Mathlib
/-!
# Texts in UTF-8

An ASCII character is one byte, which is part of no other character, and no character begins
another. The bytes of texts are in the order of the texts.
-/

namespace Data

open List

def encode (s : List Char) : List UInt8 := s.flatMap String.utf8EncodeChar

theorem encode_append (s t : List Char) : encode (s ++ t) = encode s ++ encode t := flatMap_append

theorem encode_cons (c : Char) (s : List Char) : encode (c :: s) = String.utf8EncodeChar c ++ encode s := flatMap_cons

theorem char_of_ascii {c : Char} {b : UInt8} (hb : b.toNat < 128) (h : b ∈ String.utf8EncodeChar c) : c.toNat = b.toNat := by
  have hhigh : ∀ n, n < 256 → 128 ≤ n → b ≠ UInt8.ofNat n := by
    intro n hn hge he
    have hval := congrArg UInt8.toNat he
    rw [UInt8.toNat_ofNat_of_lt' hn] at hval
    omega
  unfold String.utf8EncodeChar at h
  simp only at h
  split at h
  · next hle =>
    have hlt : c.val.toNat < UInt8.size := Nat.lt_of_le_of_lt hle (by decide)
    rw [mem_singleton.1 h, UInt8.toNat_ofNat_of_lt' hlt]
    rfl
  · split at h
    · simp only [mem_cons, not_mem_nil, or_false] at h
      rcases h with h | h <;> exact absurd h (hhigh _ (by omega) (by omega))
    · split at h
      · simp only [mem_cons, not_mem_nil, or_false] at h
        rcases h with h | h | h <;> exact absurd h (hhigh _ (by omega) (by omega))
      · simp only [mem_cons, not_mem_nil, or_false] at h
        rcases h with h | h | h | h <;> exact absurd h (hhigh _ (by omega) (by omega))

theorem mem_of_ascii_mem_encode {s : List Char} {b : UInt8} (hb : b.toNat < 128) (h : b ∈ encode s) : ∃ c ∈ s, c.toNat = b.toNat := by
  obtain ⟨c, hc, hmem⟩ := mem_flatMap.1 h
  exact ⟨c, hc, char_of_ascii hb hmem⟩

theorem encodeChar_cancel {c d : Char} {r r' : List UInt8} (h : String.utf8EncodeChar c ++ r = String.utf8EncodeChar d ++ r') :
    c = d ∧ r = r' := by
  have hc := ByteArray.utf8DecodeChar?_utf8EncodeChar_append (b := r.toByteArray) (c := c)
  have hd := ByteArray.utf8DecodeChar?_utf8EncodeChar_append (b := r'.toByteArray) (c := d)
  rw [← toByteArray_append] at hc hd
  rw [h, hd] at hc
  cases hc
  exact ⟨rfl, append_cancel_left h⟩

theorem encodeChar_ne_nil (c : Char) : String.utf8EncodeChar c ≠ [] := by
  unfold String.utf8EncodeChar
  simp only
  split
  · simp
  · split
    · simp
    · split <;> simp

theorem isPrefix_of_encode {s t : List Char} (h : encode s <+: encode t) : s <+: t := by
  induction s generalizing t with
  | nil => exact List.nil_prefix
  | cons c s ih =>
    obtain ⟨r, hr⟩ := h
    cases t with
    | nil =>
      rw [encode_cons, append_assoc] at hr
      exact absurd (append_eq_nil_iff.1 hr).1 (encodeChar_ne_nil c)
    | cons d t =>
      rw [encode_cons, encode_cons, append_assoc] at hr
      obtain ⟨rfl, hrest⟩ := encodeChar_cancel hr
      exact cons_prefix_cons.2 ⟨rfl, ih ⟨r, hrest⟩⟩

/-- The bytes of the greater character are greater where they part. -/
theorem encodeChar_append_lt {c d : Char} (h : c < d) (r r' : List UInt8) :
    String.utf8EncodeChar c ++ r < String.utf8EncodeChar d ++ r' := by
  have hcd : c.val.toNat < d.val.toNat := UInt32.lt_iff_toNat_lt.1 h
  have hd : d.val.toNat < 0x110000 := by
    have hv := d.valid
    simp only [UInt32.isValidChar, Nat.isValidChar] at hv
    omega
  unfold String.utf8EncodeChar
  generalize c.val.toNat = m at *
  generalize d.val.toNat = n at *
  have h₂ : ∀ n, n / 4096 = n / 64 / 64 := by omega
  have h₃ : ∀ n, n / 262144 = n / 64 / 64 / 64 := by omega
  simp only [h₂, h₃]
  split <;> split <;> (try split) <;> (try split) <;> (try split) <;> (try split) <;>
    simp [cons_lt_cons_iff, UInt8.lt_iff_toNat_lt, ← UInt8.toNat_inj] <;> omega

theorem encode_lt_encode {s t : List Char} : encode s < encode t ↔ s < t := by
  induction s generalizing t with
  | nil =>
    cases t with
    | nil => simp [encode]
    | cons d t =>
      obtain ⟨b, l, hl⟩ := exists_cons_of_ne_nil (encodeChar_ne_nil d)
      simp [encode, hl]
  | cons c s ih =>
    cases t with
    | nil => simp [encode]
    | cons d t =>
      rw [encode_cons, encode_cons, cons_lt_cons_iff]
      rcases lt_trichotomy c d with h | rfl | h
      · simp [h, encodeChar_append_lt h]
      · have hleft : ∀ l : List UInt8, l ++ encode s < l ++ encode t ↔ encode s < encode t := fun l => by
          induction l <;> simp_all
        simp [hleft, ih]
      · have := encodeChar_append_lt h (encode t) (encode s)
        simp [not_lt_of_gt h, (ne_of_lt h).symm, List.lt_asymm this]

end Data
