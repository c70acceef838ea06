import Mathlib
/-!
# Lists in dictionary order

The lists that begin with `p` lie together, between `p` and the list that has the next letter in the
last place that has one (`between_iff`).
-/

namespace Data

open List

variable {α : Type} [LinearOrder α] {p l l' : List α} {top : α} {n : Nat}

theorem le_of_isPrefix (h : p <+: l) : p ≤ l := not_lt.1 (List.IsPrefix.le h)

theorem cons_le_cons_iff {a b : α} : a :: l ≤ b :: l' ↔ a < b ∨ (a = b ∧ l ≤ l') := by
  rw [← not_lt, cons_lt_cons_iff]
  constructor
  · intro h
    rcases lt_trichotomy a b with hab | rfl | hab
    · exact .inl hab
    · exact .inr ⟨rfl, not_lt.1 fun hlt => h (.inr ⟨rfl, hlt⟩)⟩
    · exact absurd (.inl hab) h
  · rintro (h | ⟨rfl, h⟩) (h' | ⟨h', hlt⟩)
    · exact lt_asymm h h'
    · exact lt_irrefl _ (h' ▸ h)
    · exact lt_irrefl _ h'
    · exact not_lt.2 h hlt

/-- The lists that begin with `p` lie together. -/
theorem isPrefix_of_between (hp : p <+: l') (hl : p ≤ l) (hl' : l ≤ l') : p <+: l := by
  obtain ⟨t, rfl⟩ := hp
  induction p generalizing l with
  | nil => exact List.nil_prefix
  | cons x p ih =>
    cases l with
    | nil => exact absurd (nil_lt_cons x p) (not_lt.2 hl)
    | cons y l =>
      rcases cons_le_cons_iff.1 hl with hxy | ⟨rfl, hpl⟩
      · rcases cons_le_cons_iff.1 hl' with hyx | ⟨rfl, -⟩
        · exact absurd hxy (lt_asymm hyx)
        · exact absurd hxy (lt_irrefl _)
      · rcases cons_le_cons_iff.1 hl' with hxx | ⟨-, hlt⟩
        · exact absurd hxx (lt_irrefl _)
        · exact cons_prefix_cons.2 ⟨rfl, ih hpl hlt⟩

/-- What comes behind `p` and does not begin with it comes behind all that does. -/
theorem lt_of_not_isPrefix (hp : p <+: l) (hl' : p ≤ l') (hn : ¬ p <+: l') : l < l' :=
  lt_of_not_ge fun h => hn (isPrefix_of_between hp hl' h)

/-- Behind the greatest letters there is nothing else. -/
theorem isPrefix_of_replicate_le (htop : ∀ a, a ≤ top) (h : replicate n top ≤ l) : replicate n top <+: l := by
  induction n generalizing l with
  | zero => exact List.nil_prefix
  | succ n ih =>
    rw [replicate_succ] at h ⊢
    cases l with
    | nil => exact absurd (nil_lt_cons top _) (not_lt.2 h)
    | cons y l =>
      rcases cons_le_cons_iff.1 h with hy | ⟨rfl, hl⟩
      · exact absurd hy (not_lt.2 (htop y))
      · exact cons_prefix_cons.2 ⟨rfl, ih hl⟩

/-- Among the lists that begin with `p`, those from `p` and the greatest letter on begin so. -/
theorem lt_concat_top_iff (htop : ∀ a, a ≤ top) (hp : p <+: l) : l < p ++ [top] ↔ ¬ p ++ [top] <+: l := by
  obtain ⟨r, rfl⟩ := hp
  refine ⟨fun hlt hpre => absurd hlt (not_lt.2 (le_of_isPrefix hpre)), fun hnot => lt_of_not_ge fun hle => hnot ?_⟩
  induction p with
  | nil => exact isPrefix_of_replicate_le htop (n := 1) hle
  | cons x p ih =>
    rcases cons_le_cons_iff.1 hle with hx | ⟨-, hle⟩
    · exact absurd hx (lt_irrefl x)
    · exact cons_prefix_cons.2 ⟨rfl, ih (fun hpre => hnot (cons_prefix_cons.2 ⟨rfl, hpre⟩)) hle⟩

theorem between_iff {c d : α} (htop : ∀ a, a ≤ top) (hcd : c ⋖ d) :
    (p ++ c :: replicate n top ≤ l ∧ l < p ++ [d]) ↔ p ++ c :: replicate n top <+: l := by
  induction p generalizing l with
  | nil =>
    cases l with
    | nil => simp
    | cons y l =>
      rw [nil_append, nil_append, cons_le_cons_iff, cons_lt_cons_iff, cons_prefix_cons]
      constructor
      · rintro ⟨hc | ⟨rfl, hle⟩, hd | ⟨rfl, hlt⟩⟩
        · exact absurd hd (hcd.2 hc)
        · exact absurd hlt (not_lt_nil l)
        · exact ⟨rfl, isPrefix_of_replicate_le htop hle⟩
        · exact ⟨rfl, isPrefix_of_replicate_le htop hle⟩
      · rintro ⟨rfl, hl⟩
        exact ⟨.inr ⟨rfl, le_of_isPrefix hl⟩, .inl hcd.1⟩
  | cons x p ih =>
    cases l with
    | nil => simp
    | cons y l =>
      rw [cons_append, cons_append, cons_le_cons_iff, cons_lt_cons_iff, cons_prefix_cons, ← ih]
      constructor
      · rintro ⟨hx | ⟨rfl, hle⟩, hy | ⟨heq, hlt⟩⟩
        · exact absurd hx (lt_asymm hy)
        · exact absurd (heq ▸ hx) (lt_irrefl _)
        · exact absurd hy (lt_irrefl _)
        · exact ⟨rfl, hle, hlt⟩
      · rintro ⟨rfl, hle, hlt⟩
        exact ⟨.inr ⟨rfl, hle⟩, .inr ⟨rfl, hlt⟩⟩

end Data
