import Mathlib
/-!
# Sessions

The sessions of a machine are a list, and an action changes one of them. `Exclusive hold` says that
no two sessions hold the same thing: a row lock, a transaction id.
-/

namespace Conc

open List

variable {σ ρ : Type} {l : List σ} {i : Nat} {s : σ} {P : σ → Prop}

theorem getElem?_set_cases {j : Nat} {t : σ} (h : (l.set i s)[j]? = some t) : (j = i ∧ t = s) ∨ (j ≠ i ∧ l[j]? = some t) := by
  by_cases hij : i = j
  · subst hij
    rw [getElem?_set_self'] at h
    obtain ⟨x, -, hx⟩ := Option.map_eq_some_iff.1 h
    exact .inl ⟨rfl, hx.symm⟩
  · rw [getElem?_set_ne hij] at h
    exact .inr ⟨fun hji => hij hji.symm, h⟩

theorem getElem?_push_cases {j : Nat} {t : σ} (h : (l ++ [s])[j]? = some t) : l[j]? = some t ∨ t = s := by
  rw [getElem?_append] at h
  split at h
  · exact .inl h
  · exact .inr (mem_singleton.1 (mem_of_getElem? h))

theorem mem_set_cases {t : σ} (ht : t ∈ l.set i s) : t = s ∨ ∃ j, j ≠ i ∧ l[j]? = some t := by
  obtain ⟨j, hj⟩ := mem_iff_getElem?.1 ht
  rcases getElem?_set_cases hj with ⟨-, rfl⟩ | ⟨hji, hj⟩
  · exact .inl rfl
  · exact .inr ⟨j, hji, hj⟩

theorem forall_set (h : ∀ t ∈ l, P t) (hs : P s) : ∀ t ∈ l.set i s, P t := by
  intro t ht
  rcases mem_or_eq_of_mem_set ht with ht | rfl
  · exact h t ht
  · exact hs

theorem forall_push (h : ∀ t ∈ l, P t) (hs : P s) : ∀ t ∈ l ++ [s], P t :=
  forall_mem_append.2 ⟨h, forall_mem_singleton.2 hs⟩

theorem mem_of_mem_set {t : σ} (ht : t ∈ l.set i s) (hne : s ≠ t) : t ∈ l :=
  (mem_or_eq_of_mem_set ht).resolve_right hne.symm

theorem mem_of_mem_push {t : σ} (ht : t ∈ l ++ [s]) (hne : s ≠ t) : t ∈ l :=
  (mem_append.1 ht).resolve_right fun h => hne (mem_singleton.1 h).symm

def Exclusive (hold : σ → Option ρ) (l : List σ) : Prop :=
  ∀ (i j : Nat) (s t : σ) (r : ρ), l[i]? = some s → l[j]? = some t → hold s = some r → hold t = some r → i = j

namespace Exclusive

theorem nil (hold : σ → Option ρ) : Exclusive hold [] := fun _ _ _ _ _ h => nomatch h

variable {hold : σ → Option ρ} {l : List σ}

theorem set (h : Exclusive hold l) {s' : σ} (hi : l[i]? = some s)
    (hnew : ∀ r, hold s' = some r → hold s = some r ∨ ∀ t ∈ l, hold t ≠ some r) : Exclusive hold (l.set i s') := by
  -- nobody else holds what the changed session holds
  have hother : ∀ (j : Nat) (t : σ) (r : ρ), j ≠ i → l[j]? = some t → hold t = some r → hold s' ≠ some r := by
    intro j t r hne hj ht hs'
    rcases hnew r hs' with hs | hfree
    · exact hne (h j i t s r hj hi ht hs)
    · exact hfree t (mem_of_getElem? hj) ht
  intro j k t u r hj hk ht hu
  rcases getElem?_set_cases hj with ⟨rfl, rfl⟩ | ⟨hji, hj'⟩
  · rcases getElem?_set_cases hk with ⟨rfl, -⟩ | ⟨hki, hk'⟩
    · rfl
    · exact absurd ht (hother k u r hki hk' hu)
  · rcases getElem?_set_cases hk with ⟨rfl, rfl⟩ | ⟨-, hk'⟩
    · exact absurd hu (hother j t r hji hj' ht)
    · exact h j k t u r hj' hk' ht hu

theorem push (h : Exclusive hold l) (hs : hold s = none) : Exclusive hold (l ++ [s]) := by
  have hget : ∀ (j : Nat) (t : σ) (r : ρ), (l ++ [s])[j]? = some t → hold t = some r → l[j]? = some t := by
    intro j t r hj ht
    rcases getElem?_push_cases hj with hj | rfl
    · exact hj
    · rw [hs] at ht
      cases ht
  intro j k t u r hj hk ht hu
  exact h j k t u r (hget j t r hj ht) (hget k u r hk hu) ht hu

end Exclusive

end Conc
