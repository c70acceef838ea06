import Mathlib
/-!
# Byte strings

Big-endian numbers of a fixed width, the part `[a, b)` of a list (`List.extract`), and a list cut
into pieces of equal length (`cut`).
-/

namespace Pgvs3

open List

abbrev Bytes := List UInt8

instance : LawfulBEq Bytes := inferInstance

/-! ## Big-endian numbers -/

def bigEndian : Nat → Nat → Bytes
  | 0, _ => []
  | width + 1, n => bigEndian width (n / 256) ++ [UInt8.ofNat n]

def ofBigEndian (bs : Bytes) : Nat := bs.foldl (fun n b => n * 256 + b.toNat) 0

@[simp] theorem length_bigEndian (width n : Nat) : (bigEndian width n).length = width := by
  induction width generalizing n with
  | zero => rfl
  | succ width ih => simp [bigEndian, ih]

theorem ofBigEndian_append (bs : Bytes) (b : UInt8) : ofBigEndian (bs ++ [b]) = ofBigEndian bs * 256 + b.toNat := by
  simp [ofBigEndian]

theorem ofBigEndian_bigEndian {width n : Nat} (h : n < 256 ^ width) : ofBigEndian (bigEndian width n) = n := by
  induction width generalizing n with
  | zero =>
    have hn : n = 0 := by simpa using h
    simp [hn, bigEndian, ofBigEndian]
  | succ width ih =>
    have hd : n / 256 < 256 ^ width := Nat.div_lt_of_lt_mul (by rwa [pow_succ, Nat.mul_comm] at h)
    rw [bigEndian, ofBigEndian_append, ih hd, UInt8.toNat_ofNat']
    omega

/-! ## Parts of a list -/

section Extract

variable {α : Type} (l : List α) {a b c : Nat} {l' : List α}

theorem extract_eq : l.extract a b = (l.drop a).take (b - a) := extract_eq_take_drop

theorem length_extract : (l.extract a b).length = min b l.length - a := by
  rw [extract_eq, length_take, length_drop]
  omega

theorem extract_self : l.extract a a = [] := by
  rw [extract_eq, Nat.sub_self, take_zero]

theorem extract_all (h : l.length ≤ b) : l.extract 0 b = l := by
  rw [extract_eq, drop_zero, take_of_length_le (by omega)]

theorem extract_eq_nil (h : b ≤ a) : l.extract a b = [] := by
  rw [extract_eq, Nat.sub_eq_zero_of_le h, take_zero]

theorem extract_min : l.extract a (min b l.length) = l.extract a b := by
  rw [extract_eq, extract_eq]
  by_cases h : b ≤ l.length
  · rw [Nat.min_eq_left h]
  · rw [Nat.min_eq_right (by omega), take_of_length_le (by simp), take_of_length_le (by simp; omega)]

theorem extract_append_extract (hab : a ≤ b) (hbc : b ≤ c) : l.extract a b ++ l.extract b c = l.extract a c := by
  rw [extract_eq, extract_eq, extract_eq, show c - a = (b - a) + (c - b) by omega, take_add, drop_drop,
    show a + (b - a) = b by omega]

theorem extract_extract : (l.extract a b).extract c d = l.extract (a + c) (min (a + d) b) := by
  rw [extract_eq, extract_eq, extract_eq, drop_take, take_take, drop_drop]
  congr 1
  omega

theorem extract_append_left (h : b ≤ l.length) : (l ++ l').extract a b = l.extract a b := by
  rw [extract_eq, extract_eq]
  by_cases ha : a ≤ l.length
  · rw [drop_append_of_le_length ha, take_append_of_le_length (by simp; omega)]
  · rw [Nat.sub_eq_zero_of_le (by omega), take_zero, take_zero]

theorem extract_append_right (h : l.length ≤ a) : (l ++ l').extract a b = l'.extract (a - l.length) (b - l.length) := by
  rw [extract_eq, extract_eq, drop_append, drop_eq_nil_of_le h, nil_append]
  congr 1
  omega

def clip (l : List α) (s e a b : Nat) : List α := l.extract (max s a) (min e b)

theorem clip_append (s e : Nat) (hab : a ≤ b) (hbc : b ≤ c) : clip l s e a b ++ clip l s e b c = clip l s e a c := by
  unfold clip
  by_cases hs : b ≤ s
  · rw [extract_eq_nil l (by omega : min e b ≤ max s a), nil_append, Nat.max_eq_left hs, Nat.max_eq_left (by omega)]
  · by_cases he : e ≤ b
    · rw [extract_eq_nil l (by omega : min e c ≤ max s b), append_nil, Nat.min_eq_left he, Nat.min_eq_left (by omega)]
    · rw [Nat.min_eq_right (by omega : b ≤ e), Nat.max_eq_right (by omega : s ≤ b)]
      exact extract_append_extract l (by omega) (by omega)

theorem clip_congr {s e a' b' : Nat} (ha : max s a = max s a') (hb : min e b = min e b') : clip l s e a b = clip l s e a' b' := by
  rw [clip, clip, ha, hb]

theorem clip_eq_nil {s e : Nat} (h : min e b ≤ max s a) : clip l s e a b = [] := extract_eq_nil l h

end Extract

/-! ## Pieces of equal length -/

section Cut

variable {α : Type} {n k : Nat} {l : List α}

def cut (n : Nat) (l : List α) : List (List α) :=
  if _h : n = 0 ∨ l = [] then [] else l.take n :: cut n (l.drop n)
termination_by l.length
decreasing_by
  have : 0 < l.length := length_pos_iff.2 fun hl => _h (.inr hl)
  simp only [length_drop]
  omega

@[simp] theorem cut_nil : cut n ([] : List α) = [] := by
  rw [cut, dif_pos (.inr rfl)]

section

variable (hn : 0 < n)
include hn

theorem cut_of_ne_nil (hl : l ≠ []) : cut n l = l.take n :: cut n (l.drop n) := by
  rw [cut, dif_neg (by rintro (h | h) <;> [omega; exact hl h])]

theorem flatten_cut (l : List α) : (cut n l).flatten = l := by
  induction l using cut.induct n with
  | case1 l h =>
    rcases h with h | rfl
    · omega
    · simp
  | case2 l h ih =>
    rw [not_or] at h
    rw [cut_of_ne_nil hn h.2, flatten_cons, ih, take_append_drop]

theorem cut_append {l' : List α} (hd : n ∣ l.length) : cut n (l ++ l') = cut n l ++ cut n l' := by
  obtain ⟨k, hk⟩ := hd
  induction k generalizing l with
  | zero =>
    have hl : l = [] := length_eq_zero_iff.1 (by simpa using hk)
    simp [hl]
  | succ k ih =>
    have hlen : n ≤ l.length := by
      rw [hk, Nat.mul_succ]
      omega
    have hl : l ≠ [] := by
      rintro rfl
      simp at hlen
      omega
    have hdrop : (l.drop n).length = n * k := by
      rw [length_drop, hk, Nat.mul_succ]
      omega
    rw [cut_of_ne_nil hn (by simp [hl]), cut_of_ne_nil hn hl, take_append_of_le_length hlen, drop_append_of_le_length hlen,
      ih hdrop, cons_append]

theorem getElem?_cut (l : List α) (i : Nat) :
    (cut n l)[i]? = if i * n < l.length then some (l.extract (i * n) (i * n + n)) else none := by
  induction i generalizing l with
  | zero =>
    by_cases hl : l = []
    · simp [hl]
    · rw [cut_of_ne_nil hn hl, if_pos (by simpa using length_pos_iff.2 hl)]
      simp
  | succ i ih =>
    by_cases hl : l = []
    · simp [hl]
    · have hi : (i + 1) * n = n + i * n := by rw [Nat.succ_mul, Nat.add_comm]
      rw [cut_of_ne_nil hn hl, getElem?_cons_succ, ih, length_drop, hi]
      by_cases h : n + i * n < l.length
      · rw [if_pos h, if_pos (by omega), extract_eq, extract_eq, drop_drop]
        congr 2
        omega
      · rw [if_neg h, if_neg (by omega)]

theorem length_cut_le (h : l.length ≤ k * n) : (cut n l).length ≤ k := by
  by_contra hc
  have hk : k < (cut n l).length := by omega
  have hget := getElem?_cut hn l k
  rw [getElem?_eq_getElem hk, if_neg (by omega)] at hget
  cases hget

theorem length_cut_of_dvd (h : l.length = k * n) : (cut n l).length = k := by
  refine le_antisymm (length_cut_le hn h.le) ?_
  by_contra hc
  have hget := getElem?_cut hn l (k - 1)
  have hlt : (k - 1) * n < l.length := by
    rw [h]
    exact (Nat.mul_lt_mul_right hn).2 (by omega)
  rw [if_pos hlt, getElem?_eq_none (by omega)] at hget
  cases hget

theorem mem_cut {p : List α} (h : p ∈ cut n l) : p ≠ [] ∧ p.length ≤ n := by
  obtain ⟨i, hi⟩ := mem_iff_getElem?.1 h
  rw [getElem?_cut hn] at hi
  split at hi
  · cases hi
    have hlen := length_extract l (a := i * n) (b := i * n + n)
    constructor
    · intro hnil
      rw [hnil, length_nil] at hlen
      omega
    · omega
  · cases hi

end

end Cut

end Pgvs3
