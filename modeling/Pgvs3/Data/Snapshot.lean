import Mathlib
/-!
# PostgreSQL snapshots

A snapshot (`pg_snapshot`) is the next transaction id at the time it was taken, the ids of the
transactions that were then running, and a bound below which none was. `Snapshot.diff` picks what
one snapshot sees and an earlier one does not.
-/

namespace Pgvs3

structure Snapshot where
  xmin : Nat
  xmax : Nat
  xip : List Nat
  xmin_le_xmax : xmin ≤ xmax
  xmin_le_xip : ∀ x ∈ xip, xmin ≤ x
deriving DecidableEq

namespace Snapshot

/-- `pg_visible_in_snapshot`. -/
def sees (s : Snapshot) (x : Nat) : Prop := x < s.xmax ∧ x ∉ s.xip

instance (s : Snapshot) (x : Nat) : Decidable (s.sees x) := inferInstanceAs (Decidable (_ ∧ _))

theorem foldr_min_le (l : List Nat) (n : Nat) : l.foldr min n ≤ n ∧ ∀ x ∈ l, l.foldr min n ≤ x := by
  induction l with
  | nil => exact ⟨Nat.le_refl n, nofun⟩
  | cons y l ih =>
    refine ⟨Nat.le_trans (Nat.min_le_right _ _) ih.1, fun x hx => ?_⟩
    rcases List.mem_cons.1 hx with rfl | hx
    · exact Nat.min_le_left _ _
    · exact Nat.le_trans (Nat.min_le_right _ _) (ih.2 x hx)

/-- `pg_current_snapshot`, where `next` is the next transaction id and `running` are the
transactions that have one. -/
def take (next : Nat) (running : List Nat) : Snapshot :=
  ⟨running.foldr min next, next, running, (foldr_min_le running next).1, (foldr_min_le running next).2⟩

theorem sees_of_lt_xmin {s : Snapshot} {x : Nat} (h : x < s.xmin) : s.sees x :=
  ⟨Nat.lt_of_lt_of_le h s.xmin_le_xmax, fun hx => absurd (s.xmin_le_xip x hx) (Nat.not_le.2 h)⟩

/-- What `ct` sees and `lt` does not, as a query with bounds for an index. -/
def diff (lt ct : Snapshot) (x : Nat) : Prop :=
  ct.sees x ∧ ¬ lt.sees x ∧ (lt.xmax ≤ x ∨ x ∈ lt.xip ∧ x ∉ ct.xip)

instance (lt ct : Snapshot) (x : Nat) : Decidable (diff lt ct x) := inferInstanceAs (Decidable (_ ∧ _))

theorem diff_iff {lt ct : Snapshot} {x : Nat} : diff lt ct x ↔ ct.sees x ∧ ¬ lt.sees x := by
  constructor
  · rintro ⟨hct, hlt, -⟩
    exact ⟨hct, hlt⟩
  · rintro ⟨hct, hlt⟩
    refine ⟨hct, hlt, ?_⟩
    by_cases hx : lt.xmax ≤ x
    · exact .inl hx
    · have hin : x ∈ lt.xip := by
        by_contra hnot
        exact hlt ⟨Nat.not_le.1 hx, hnot⟩
      exact .inr ⟨hin, hct.2⟩

end Snapshot

end Pgvs3
