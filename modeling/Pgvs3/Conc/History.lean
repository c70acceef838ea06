import Pgvs3.Conc.Outline
/-!
# History variables

An `Observer` keeps the past in a value of type `H` next to the world: it looks at every step and
takes no part in it. The last section has the rules of proof outlines with the world and its history
apart.
-/

namespace Conc.Sys

variable {M : Sys} {H : Type}

/-- How the history moves with a statement, with a move of the environment, and at a request's end.
-/
structure Observer (M : Sys) (H : Type) where
  step : Nat → (s : M.Stmt) → M.Ans s → M.World → M.World → H → H
  env : M.Ev → M.World → M.World → H → H
  done : Nat → M.Res → M.World → H → H

/-- The system with its history. Programs are the same. -/
def Observer.sys (O : Observer M H) : Sys where
  Stmt := M.Stmt
  Ans := M.Ans
  Res := M.Res
  World := M.World × H
  Ev := M.Ev
  exec t s w := (M.exec t s w.1).map fun x => (x.1, x.2, O.step t s x.1 w.1 x.2 w.2)
  env e w := (M.env e w.1).map fun w' => (w', O.env e w.1 w' w.2)
  done t a w := (M.done t a w.1, O.done t a w.1 w.2)

variable {O : Observer M H}

theorem Observer.mem_exec {t : Nat} {s : M.Stmt} {w w' : M.World} {h h' : H} {r : M.Ans s} :
    (r, (w', h')) ∈ O.sys.exec t s (w, h) ↔ (r, w') ∈ M.exec t s w ∧ h' = O.step t s r w w' h := by
  constructor
  · intro hm
    obtain ⟨x, hx, he⟩ := List.mem_map.1 hm
    cases he
    exact ⟨hx, rfl⟩
  · rintro ⟨hx, rfl⟩
    exact List.mem_map.2 ⟨(r, w'), hx, rfl⟩

theorem Observer.env_eq_some {e : M.Ev} {w w' : M.World} {h h' : H} :
    O.sys.env e (w, h) = some (w', h') ↔ M.env e w = some w' ∧ h' = O.env e w w' h := by
  simp only [sys, Option.map_eq_some_iff, Prod.mk.injEq]
  constructor
  · rintro ⟨v, hv, rfl, rfl⟩
    exact ⟨hv, rfl⟩
  · rintro ⟨hv, rfl⟩
    exact ⟨w', hv, rfl, rfl⟩

/-! ## Outlines of observed systems -/

namespace Outline

variable {Ω : Outline O.sys} {A : O.sys.Policy} {t : Nat} {α : Type} {P : M.World × H → Prop} {Q : α → M.World × H → Prop}

theorem Meets.observed {s : M.Stmt} {f : M.Ans s → Prog M.Stmt M.Ans α} (P' : M.Ans s → M.World × H → Prop) (hs : ∀ r, Ω.Stable t (P' r))
    (hx : ∀ w h, Ω.inv (w, h) → P (w, h) → ∀ r w', (r, w') ∈ M.exec t s w → A.step t s (w, h) r →
      Ω.inv (w', O.step t s r w w' h) ∧ Ω.guar (some t) (w, h) (w', O.step t s r w w' h) ∧ P' r (w', O.step t s r w w' h))
    (hk : ∀ r, Ω.Meets A t (f r) (P' r) Q) : Ω.Meets A t (Prog.stmt s >>= f) P Q := by
  refine Meets.stmt P' hs ?_ hk
  rintro ⟨w, h⟩ hi hP r ⟨w', h'⟩ hm ha
  obtain ⟨he, rfl⟩ := Observer.mem_exec.1 hm
  exact hx w h hi hP r w' he ha

theorem Meets.observed_all {φ : M.Stmt → Prop} (hs : Ω.Stable t P)
    (hx : ∀ s, φ s → ∀ w h, Ω.inv (w, h) → P (w, h) → ∀ r w', (r, w') ∈ M.exec t s w → A.step t s (w, h) r →
      Ω.inv (w', O.step t s r w w' h) ∧ Ω.guar (some t) (w, h) (w', O.step t s r w w' h) ∧ P (w', O.step t s r w w' h))
    {p : Prog M.Stmt M.Ans α} (hp : p.All φ) : Ω.Meets A t p P fun _ => P := by
  refine Meets.of_all hs ?_ hp
  rintro s hφ ⟨w, h⟩ hi hP r ⟨w', h'⟩ hm ha
  obtain ⟨he, rfl⟩ := Observer.mem_exec.1 hm
  exact hx s hφ w h hi hP r w' he ha

/-- A step in an outline by relies: what every other request relies on is kept. -/
theorem Meets.own {inv : M.World × H → Prop} {rely : Nat → M.World × H → M.World × H → Prop} {idle : Nat → M.World × H → Prop}
    {post : Nat → M.Res → M.World × H → Prop} {s : M.Stmt} {f : M.Ans s → Prog M.Stmt M.Ans α} (P' : M.Ans s → M.World × H → Prop)
    (hs : ∀ r x x', rely t x x' → P' r x → P' r x')
    (hx : ∀ w h r w', inv (w, h) → P (w, h) → (r, w') ∈ M.exec t s w → A.step t s (w, h) r →
      inv (w', O.step t s r w w' h) ∧ (∀ v, v ≠ t → rely v (w, h) (w', O.step t s r w w' h)) ∧ P' r (w', O.step t s r w w' h))
    (hk : ∀ r, (ofRely inv rely idle post).Meets A t (f r) (P' r) Q) :
    (ofRely inv rely idle post).Meets A t (Prog.stmt s >>= f) P Q := by
  refine Meets.observed P' (fun r => stable_ofRely (hs r)) (fun w h hi hP r w' he ha => ?_) hk
  obtain ⟨hi', hm, hp⟩ := hx w h r w' hi hP he ha
  exact ⟨hi', fun v hv => hm v fun e => hv (by rw [e]), hp⟩

end Outline

end Conc.Sys
