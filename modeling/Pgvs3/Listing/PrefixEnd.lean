import Pgvs3.Data.Utf8
import Pgvs3.Listing.Page
/-!
# The end of a prefix

`prefixEnd` (`s3/request.go:210-219`) makes the last character below U+10FFFF greater by one and
drops what follows. Without one the end is U+10FFFF, and U+D7FF is followed by U+FFFD.
-/

namespace Pgvs3.Listing

open List Data

section Ordinary

variable {pre k : Text}

/-- The last character below U+10FFFF is not the last one before the surrogates. -/
def Ordinary (pre : Text) : Prop :=
  ∃ base c n, pre = base ++ c :: replicate n maxRune ∧ c ≠ maxRune ∧ c.toNat ≠ 0xd7ff

variable {c : Char}

theorem toNat_nextRune (hmax : c ≠ maxRune) (hsur : c.toNat ≠ 0xd7ff) : (nextRune c).toNat = c.toNat + 1 := by
  have hlt : c.toNat < 0x10ffff := by
    refine lt_of_le_of_ne (toNat_le_maxRune c) fun h => hmax ?_
    rw [← Char.ofNat_toNat c, h]
    rfl
  have hvalid : (c.toNat + 1).isValidChar := by
    have h := c.valid
    change c.toNat < _ ∨ _ < c.toNat ∧ c.toNat < _ at h
    omega
  rw [nextRune, if_neg hsur, Char.ofNat, dif_pos hvalid]
  rfl

theorem covBy_nextRune (hmax : c ≠ maxRune) (hsur : c.toNat ≠ 0xd7ff) : c ⋖ nextRune c := by
  have hnext := toNat_nextRune hmax hsur
  refine ⟨by rw [char_lt_iff]; omega, fun d hcd hd => ?_⟩
  rw [char_lt_iff] at hcd hd
  omega

theorem prefixEnd_eq {base : Text} {n : Nat} (hmax : c ≠ maxRune) :
    prefixEnd (base ++ c :: replicate n maxRune) = base ++ [nextRune c] := by
  have hrev : (base ++ c :: replicate n maxRune).reverse = replicate n maxRune ++ c :: base.reverse := by
    simp
  have hdrop : (replicate n maxRune ++ c :: base.reverse).dropWhile (· == maxRune) = c :: base.reverse := by
    rw [dropWhile_append_of_pos (by simp), dropWhile_cons_of_neg (by simpa using hmax)]
  rw [prefixEnd, hrev, hdrop]
  simp

theorem inRange_iff (h : Ordinary pre) : InRange pre k ↔ pre <+: k := by
  obtain ⟨base, c, n, rfl, hmax, hsur⟩ := h
  rw [InRange, prefixEnd_eq hmax]
  exact between_iff le_maxRune (covBy_nextRune hmax hsur)

end Ordinary

/-- Every text is made of U+10FFFF alone or has a last other character. -/
theorem runes_cases (pre : Text) : (∃ n, pre = replicate n maxRune) ∨
    ∃ base c n, pre = base ++ c :: replicate n maxRune ∧ c ≠ maxRune := by
  induction pre with
  | nil => exact .inl ⟨0, rfl⟩
  | cons x pre ih =>
    rcases ih with ⟨n, rfl⟩ | ⟨base, c, n, rfl, hc⟩
    · by_cases hx : x = maxRune
      · exact .inl ⟨n + 1, by rw [hx, replicate_succ]⟩
      · exact .inr ⟨[], x, n, rfl, hx⟩
    · exact .inr ⟨x :: base, c, n, rfl, hc⟩

/-- Nothing lies behind U+10FFFF, the end of these prefixes. -/
theorem not_inRange_top (n : Nat) : ¬ InRange (replicate n maxRune) (replicate n maxRune ++ [maxRune]) := by
  rintro ⟨-, hlt⟩
  have hend : prefixEnd (replicate n maxRune) = [maxRune] := by simp [prefixEnd]
  rw [hend] at hlt
  refine absurd hlt (not_lt.2 (le_of_isPrefix ?_))
  cases n <;> simp [replicate_succ]

/-- U+E000 lies between U+D7FF and U+FFFD. -/
theorem inRange_surrogate {base : Text} {c : Char} {n : Nat} (hc : c.toNat = 0xd7ff) :
    InRange (base ++ c :: replicate n maxRune) (base ++ [Char.ofNat 0xe000]) := by
  have hlt : c < Char.ofNat 0xe000 := by
    rw [char_lt_iff, hc]
    decide
  rw [InRange, prefixEnd_eq (by rintro rfl; cases hc), nextRune, if_pos hc]
  exact ⟨(append_left_lt (cons_lt_cons_iff.2 (.inl hlt))).le, append_left_lt (cons_lt_cons_iff.2 (.inl (by decide)))⟩

/-- **Prefix upper bound.** The keys from a prefix up to `prefixEnd`, in byte order, are those that
have the prefix, exactly for the ordinary prefixes. -/
theorem prefixEnd_exact_iff (pre : Text) : (∀ k : Text, (encode pre ≤ encode k ∧ encode k < encode (prefixEnd pre)) ↔
      encode pre <+: encode k) ↔ Ordinary pre := by
  have hbytes : ∀ k, ((encode pre ≤ encode k ∧ encode k < encode (prefixEnd pre)) ↔
      encode pre <+: encode k) ↔ (InRange pre k ↔ pre <+: k) := by
    intro k
    have hpre : encode pre <+: encode k ↔ pre <+: k :=
      ⟨isPrefix_of_encode, fun ⟨r, hr⟩ => ⟨encode r, by rw [← encode_append, hr]⟩⟩
    rw [InRange, hpre, encode_lt_encode, ← List.not_lt, encode_lt_encode, not_lt]
  simp only [hbytes]
  refine ⟨fun h => ?_, fun h k => inRange_iff h⟩
  rcases runes_cases pre with ⟨n, rfl⟩ | ⟨base, c, n, rfl, hmax⟩
  · exact absurd ((h _).2 (prefix_append _ _)) (not_inRange_top n)
  · refine ⟨base, c, n, rfl, hmax, fun hc => ?_⟩
    have hpre := (prefix_append_right_inj base).1 ((h _).1 (inRange_surrogate hc))
    rw [(cons_prefix_cons.1 hpre).1] at hc
    cases hc

/-- The listing without a prefix leaves out the keys that begin with U+10FFFF. -/
theorem top_key_dropped : ¬ ∀ pre k : Text, (encode pre ≤ encode k ∧ encode k < encode (prefixEnd pre)) ↔ encode pre <+: encode k :=
  fun h => absurd ((h [] [maxRune]).2 (by decide)) (by decide)

end Pgvs3.Listing
