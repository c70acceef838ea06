import Mathlib
/-!
# Groups of neighbours

Some elements of a list belong to a group, and those of one group stand together. `heads` are the
first of each group, and what belongs to none: a reader that goes through the list only has to know
the group of the element before.
-/

namespace Data

open List

section Groups

variable {α γ : Type} {g : α → Option γ}

/-- The group of the last element, or of the one before the list. -/
def lastGroup (g : α → Option γ) (c : Option γ) (xs : List α) : Option γ := xs.getLast?.elim c g

theorem lastGroup_cons (c : Option γ) (x : α) (xs : List α) : lastGroup g c (x :: xs) = lastGroup g (g x) xs := by
  cases xs <;> simp [lastGroup, getLast?_cons]

theorem lastGroup_append (c : Option γ) (xs ys : List α) : lastGroup g c (xs ++ ys) = lastGroup g (lastGroup g c xs) ys := by
  induction xs generalizing c with
  | nil => rfl
  | cons x xs ih => rw [cons_append, lastGroup_cons, lastGroup_cons, ih]

theorem lastGroup_concat (c : Option γ) (xs : List α) (x : α) : lastGroup g c (xs ++ [x]) = g x := by simp [lastGroup]

/-- A list in which the elements of a group stand together. -/
structure Grouped (g : α → Option γ) (le : α → α → Prop) (xs : List α) : Prop where
  ordered : xs.Pairwise le
  between : ∀ x ∈ xs, ∀ y ∈ xs, ∀ z ∈ xs, le x y → le y z → g x = g z → (g x).isSome → g y = g x

namespace Grouped

variable {le : α → α → Prop} {xs ys zs : List α} {m x : α} {c : Option γ}

theorem sublist (h : Grouped g le xs) (hs : ys.Sublist xs) : Grouped g le ys :=
  ⟨h.ordered.sublist hs, fun x hx y hy z hz => h.between x (hs.subset hx) y (hs.subset hy) z (hs.subset hz)⟩

theorem group_ne (h : Grouped g le (xs ++ m :: ys)) (hsome : (g m).isSome) (hne : g m ≠ lastGroup g c xs) : ∀ x ∈ xs, g x ≠ g m := by
  intro x hx heq
  rcases eq_nil_or_concat xs with rfl | ⟨init, a, rfl⟩
  · cases hx
  · rw [concat_eq_append] at h hx hne
    rw [lastGroup_concat] at hne
    rcases mem_append.1 hx with hx | hx
    · -- the element before is between the two
      obtain ⟨hord, -, hcross⟩ := pairwise_append.1 h.ordered
      have ha : a ∈ init ++ [a] := mem_append_right _ (mem_singleton.2 rfl)
      have hxa : le x a := (pairwise_append.1 hord).2.2 x hx a (mem_singleton.2 rfl)
      have ham : le a m := hcross a ha m mem_cons_self
      have hga := h.between x (mem_append_left _ (mem_append_left _ hx)) a (mem_append_left _ ha) m
        (mem_append_right _ mem_cons_self) hxa ham heq (heq ▸ hsome)
      exact hne (hga.trans heq).symm
    · rw [mem_singleton.1 hx] at heq
      exact hne heq.symm

end Grouped

end Groups

section Heads

variable {α γ : Type} [DecidableEq γ] {g : α → Option γ} {c : Option γ} {xs : List α} {x : α}

/-- The first elements of their groups and those in none, where the element before is in the group
`c`. -/
def heads (g : α → Option γ) : Option γ → List α → List α
  | _, [] => []
  | c, x :: xs => if (g x).isSome ∧ g x = c then heads g (g x) xs else x :: heads g (g x) xs

theorem heads_append (c : Option γ) (xs ys : List α) : heads g c (xs ++ ys) = heads g c xs ++ heads g (lastGroup g c xs) ys := by
  induction xs generalizing c with
  | nil => rfl
  | cons x xs ih =>
    rw [cons_append, heads, heads, lastGroup_cons, ih]
    split <;> rfl

/-- Nothing is reported exactly of what goes on in the group. -/
theorem heads_eq_nil_iff : heads g c xs = [] ↔ ∀ x ∈ xs, (g x).isSome ∧ g x = c := by
  induction xs generalizing c with
  | nil => simp [heads]
  | cons x xs ih =>
    rw [heads]
    split
    · next hx =>
      rw [ih, forall_mem_cons, hx.2]
      exact ⟨fun h => ⟨⟨hx.2 ▸ hx.1, rfl⟩, h⟩, fun h => h.2⟩
    · next hx =>
      rw [forall_mem_cons]
      exact iff_of_false (cons_ne_nil _ _) fun h => hx h.1

theorem heads_sublist (c : Option γ) (xs : List α) : (heads g c xs).Sublist xs := by
  induction xs generalizing c with
  | nil => exact List.Sublist.refl _
  | cons x xs ih =>
    rw [heads]
    split
    · exact (ih _).cons _
    · exact (ih _).cons_cons _

theorem mem_heads (h : x ∈ heads g c xs) : ∃ ys zs, xs = ys ++ x :: zs ∧ ¬ ((g x).isSome ∧ g x = lastGroup g c ys) := by
  induction xs generalizing c with
  | nil => cases h
  | cons y xs ih =>
    rw [heads] at h
    have hlater : x ∈ heads g (g y) xs → ∃ ys zs, y :: xs = ys ++ x :: zs ∧ ¬ ((g x).isSome ∧ g x = lastGroup g c ys) := by
      intro hx
      obtain ⟨ys, zs, rfl, hne⟩ := ih hx
      exact ⟨y :: ys, zs, rfl, by rw [lastGroup_cons]; exact hne⟩
    split at h
    · exact hlater h
    · next hy =>
      rcases mem_cons.1 h with rfl | h
      · exact ⟨[], xs, rfl, hy⟩
      · exact hlater h

/-- The last element that is reported; what comes after it goes on in its group. -/
theorem heads_last (h : heads g c xs ≠ []) : ∃ ys m zs, xs = ys ++ m :: zs ∧ heads g c xs = heads g c ys ++ [m] ∧ heads g (g m) zs = [] ∧
      ¬ ((g m).isSome ∧ g m = lastGroup g c ys) := by
  induction xs generalizing c with
  | nil => exact absurd rfl h
  | cons x xs ih =>
    by_cases hnil : heads g (g x) xs = []
    · by_cases hx : (g x).isSome ∧ g x = c
      · rw [heads, if_pos hx] at h
        exact absurd hnil h
      · refine ⟨[], x, xs, rfl, ?_, hnil, hx⟩
        show (if (g x).isSome ∧ g x = c then heads g (g x) xs else x :: heads g (g x) xs) = [x]
        rw [if_neg hx, hnil]
    · obtain ⟨ys, m, zs, rfl, heq, htail, hne⟩ := ih hnil
      refine ⟨x :: ys, m, zs, rfl, ?_, htail, by rw [lastGroup_cons]; exact hne⟩
      rw [heads, heads, heq]
      split <;> rfl

/-- Every element is reported, or its group is. -/
theorem heads_cover (hx : x ∈ xs) : x ∈ heads g c xs ∨ ((g x).isSome ∧ (g x = c ∨ ∃ y ∈ heads g c xs, g y = g x)) := by
  induction xs generalizing c with
  | nil => cases hx
  | cons y xs ih =>
    rw [heads]
    rcases mem_cons.1 hx with rfl | hx
    · split
      · next h => exact .inr ⟨h.1, .inl h.2⟩
      · exact .inl mem_cons_self
    · rcases ih hx with hmem | ⟨hsome, heq | ⟨z, hz, hgz⟩⟩
      · split
        · exact .inl hmem
        · exact .inl (mem_cons_of_mem _ hmem)
      · split
        · next h => exact .inr ⟨hsome, .inl (heq.trans h.2)⟩
        · exact .inr ⟨hsome, .inr ⟨y, mem_cons_self, heq.symm⟩⟩
      · split
        · exact .inr ⟨hsome, .inr ⟨z, hz, hgz⟩⟩
        · exact .inr ⟨hsome, .inr ⟨z, mem_cons_of_mem _ hz, hgz⟩⟩

theorem mem_heads_iff (h : g x = none) : x ∈ heads g c xs ↔ x ∈ xs := by
  refine ⟨fun hx => (heads_sublist c xs).subset hx, fun hx => (heads_cover hx).resolve_right fun hsome => ?_⟩
  rw [h] at hsome
  cases hsome.1

theorem mem_groups_iff {k : γ} : k ∈ (heads g none xs).filterMap g ↔ ∃ x ∈ xs, g x = some k := by
  rw [mem_filterMap]
  constructor
  · rintro ⟨x, hx, hk⟩
    exact ⟨x, (heads_sublist none xs).subset hx, hk⟩
  · rintro ⟨x, hx, hk⟩
    rcases heads_cover (g := g) (c := none) hx with hmem | ⟨-, hnone | ⟨y, hy, hgy⟩⟩
    · exact ⟨x, hmem, hk⟩
    · rw [hk] at hnone
      cases hnone
    · exact ⟨y, hy, hgy.trans hk⟩

/-- No group is reported twice. -/
theorem Grouped.nodup_groups {le : α → α → Prop} (h : Grouped g le xs) : ((heads g c xs).filterMap g).Nodup := by
  induction xs generalizing c with
  | nil => exact nodup_nil
  | cons x xs ih =>
    have htail := ih (h.sublist (sublist_cons_self x xs)) (c := g x)
    rw [heads]
    split
    · exact htail
    · cases hgx : g x with
      | none => rwa [filterMap_cons_none hgx, ← hgx]
      | some k =>
        rw [filterMap_cons_some hgx, nodup_cons, ← hgx]
        refine ⟨fun hmem => ?_, htail⟩
        obtain ⟨y, hy, hgy⟩ := mem_filterMap.1 hmem
        obtain ⟨ys, zs, rfl, hne⟩ := mem_heads hy
        have hsome : (g y).isSome := by rw [hgy]; rfl
        rw [← cons_append] at h
        refine h.group_ne (c := c) hsome (fun heq => hne ⟨hsome, ?_⟩) x mem_cons_self (hgx.trans hgy.symm)
        rwa [lastGroup_cons] at heq

end Heads

end Data
