import Pgvs3.Conc.Prog
/-!
# Proof outlines: rely-guarantee for interleaved programs

An `Outline` gives an invariant of the world, what the steps of each request may do to it (`guar`),
what holds of a request number while no request runs under it (`idle`) and what a request knows at
its end (`post`). `Meets` attaches an assertion to every point of a program: it is stable under the
steps of everybody else, and each statement leads from one assertion to the next within the
guarantee.
-/

namespace Conc.Sys

/-- Invariant, guarantees, idle and final assertions of a system. -/
structure Outline (M : Sys) where
  inv : M.World → Prop
  guar : Option Nat → M.World → M.World → Prop
  idle : Nat → M.World → Prop
  post : Nat → M.Res → M.World → Prop

namespace Outline

variable {M : Sys} (O : Outline M) (A : M.Policy) (t : Nat)

/-- `P` survives every step that is not the request's own. -/
def Stable (P : M.World → Prop) : Prop :=
  ∀ u w w', u ≠ some t → O.inv w → O.inv w' → O.guar u w w' → P w → P w'

/-- From `P`, every statement keeps the invariant and the guarantee and leads to an assertion for
the rest; at the end `Q` holds of the result. -/
def Meets {α : Type} : Prog M.Stmt M.Ans α → (M.World → Prop) → (α → M.World → Prop) → Prop
  | .ret a, P, Q => ∀ w, O.inv w → P w → Q a w
  | .ask s k, P, Q => ∀ w, O.inv w → P w → ∀ r w', (r, w') ∈ M.exec t s w → A.step t s w r →
      O.inv w' ∧ O.guar (some t) w w' ∧ ∃ P', O.Stable t P' ∧ P' w' ∧ Meets (k r) P' Q

/-- The outline is right for every request and every move of the environment that `A` allows. -/
structure Sound : Prop where
  idle_stable : ∀ t, O.Stable t (O.idle t)
  spawn : ∀ t w p, O.inv w → O.idle t w → A.spawn t w p → ∃ P, O.Stable t P ∧ P w ∧ O.Meets A t p P (O.post t)
  done : ∀ t a w, O.inv w → O.post t a w → O.inv (M.done t a w) ∧ O.guar (some t) w (M.done t a w) ∧ O.idle t (M.done t a w)
  env : ∀ e w w', O.inv w → A.env e w → M.env e w = some w' → O.inv w' ∧ O.guar none w w'

/-- The outline at a state of a run: the invariant, and an assertion for every running request. -/
structure Holds (c : M.Conf) : Prop where
  inv : O.inv c.world
  idle : ∀ t, c.pool t = none → O.idle t c.world
  busy : ∀ t p, c.pool t = some p → ∃ P, O.Stable t P ∧ P c.world ∧ O.Meets A t p P (O.post t)

variable {O A t} {α β : Type} {w : M.World} {c : M.Conf}

section Rules

variable {P P' : M.World → Prop} {Q : α → M.World → Prop} {p : Prog M.Stmt M.Ans α} {s : M.Stmt}

theorem stable_true : O.Stable t fun _ => True := fun _ _ _ _ _ _ _ _ => trivial

theorem Stable.and {P₁ P₂ : M.World → Prop} (h₁ : O.Stable t P₁) (h₂ : O.Stable t P₂) : O.Stable t fun w => P₁ w ∧ P₂ w :=
  fun u w w' hu hi hi' hg hp => ⟨h₁ u w w' hu hi hi' hg hp.1, h₂ u w w' hu hi hi' hg hp.2⟩

theorem stable_const (p : Prop) : O.Stable t fun _ => p := fun _ _ _ _ _ _ _ h => h

theorem Meets.pre (h : ∀ w, O.inv w → P' w → P w) (hp : O.Meets A t p P Q) : O.Meets A t p P' Q := by
  cases p with
  | ret | ask => exact fun w hi hw => hp w hi (h w hi hw)

theorem Meets.vacuous (h : ∀ w, O.inv w → ¬ P w) : O.Meets A t p P Q := by
  cases p with
  | ret | ask => exact fun w hi hw => absurd hw (h w hi)

theorem Meets.post {Q' : α → M.World → Prop} (h : ∀ a w, O.inv w → Q a w → Q' a w) :
    ∀ {p : Prog M.Stmt M.Ans α} {P : M.World → Prop}, O.Meets A t p P Q → O.Meets A t p P Q'
  | .ret a, _, hp => fun w hi hw => h a w hi (hp w hi hw)
  | .ask _ _, _, hp => fun w hi hw r w' hx ha => by
    obtain ⟨hi', hg, P', hs, hw', hk⟩ := hp w hi hw r w' hx ha
    exact ⟨hi', hg, P', hs, hw', Meets.post h hk⟩

theorem Meets.bind {f : α → Prog M.Stmt M.Ans β} {Q' : β → M.World → Prop} :
    ∀ {p : Prog M.Stmt M.Ans α} {P : M.World → Prop}, O.Meets A t p P Q → (∀ a, O.Meets A t (f a) (Q a) Q') → O.Meets A t (p >>= f) P Q'
  | .ret a, _, hp, hf => (hf a).pre hp
  | .ask _ _, _, hp, hf => fun w hi hw r w' hx ha => by
    obtain ⟨hi', hg, P', hs, hw', hk⟩ := hp w hi hw r w' hx ha
    exact ⟨hi', hg, P', hs, hw', Meets.bind hk hf⟩

theorem Meets.step {k : M.Ans s → Prog M.Stmt M.Ans α} (P' : M.Ans s → M.World → Prop) (hs : ∀ r, O.Stable t (P' r))
    (hx : ∀ w, O.inv w → P w → ∀ r w', (r, w') ∈ M.exec t s w → A.step t s w r → O.inv w' ∧ O.guar (some t) w w' ∧ P' r w')
    (hk : ∀ r, O.Meets A t (k r) (P' r) Q) : O.Meets A t (.ask s k) P Q := by
  intro w hi hw r w' hm ha
  obtain ⟨hi', hg, hp⟩ := hx w hi hw r w' hm ha
  exact ⟨hi', hg, P' r, hs r, hp, hk r⟩

theorem Meets.stmt {f : M.Ans s → Prog M.Stmt M.Ans α} (P' : M.Ans s → M.World → Prop) (hs : ∀ r, O.Stable t (P' r))
    (hx : ∀ w, O.inv w → P w → ∀ r w', (r, w') ∈ M.exec t s w → A.step t s w r → O.inv w' ∧ O.guar (some t) w w' ∧ P' r w')
    (hk : ∀ r, O.Meets A t (f r) (P' r) Q) : O.Meets A t (Prog.stmt s >>= f) P Q :=
  Meets.step P' hs hx hk

theorem Meets.of_all {φ : M.Stmt → Prop} (hs : O.Stable t P)
    (hx : ∀ s, φ s → ∀ w, O.inv w → P w → ∀ r w', (r, w') ∈ M.exec t s w → A.step t s w r → O.inv w' ∧ O.guar (some t) w w' ∧ P w') :
    ∀ {p : Prog M.Stmt M.Ans α}, p.All φ → O.Meets A t p P fun _ => P
  | .ret _, _ => fun _ _ hw => hw
  | .ask s _, h => Meets.step (fun _ => P) (fun _ => hs) (hx s h.1) fun r => Meets.of_all hs hx (h.2 r)

end Rules

/-! ## Soundness -/

theorem Holds.start (hi : O.inv w) (hd : ∀ t, O.idle t w) : O.Holds A (M.start w) :=
  ⟨hi, fun t _ => hd t, nofun⟩

theorem Holds.others (h : O.Holds A c) (hO : O.Sound A) {u : Option Nat}
    (hi : O.inv w) (hg : O.guar u c.world w) (v : Nat) (hv : u ≠ some v) :
    (c.pool v = none → O.idle v w) ∧
    ∀ p, c.pool v = some p → ∃ P, O.Stable v P ∧ P w ∧ O.Meets A v p P (O.post v) := by
  refine ⟨fun hn => hO.idle_stable v u _ _ hv h.inv hi hg (h.idle v hn), fun p hp => ?_⟩
  obtain ⟨P, hs, hw, hm⟩ := h.busy v p hp
  exact ⟨P, hs, hs u _ _ hv h.inv hi hg hw, hm⟩

theorem Holds.step (hO : O.Sound A) {d : M.Conf} (h : O.Holds A c) (hs : Step A c d) : O.Holds A d := by
  cases hs with
  | @spawn t p hp ha =>
    refine ⟨h.inv, fun v hv => ?_, fun v q hv => ?_⟩
    · by_cases e : v = t
      · subst e; simp at hv
      · exact h.idle v (by simpa [upd_ne _ _ e] using hv)
    · by_cases e : v = t
      · subst e
        simp only [upd_self, Option.some.injEq] at hv
        subst hv
        exact hO.spawn v _ _ h.inv (h.idle v hp) ha
      · exact h.busy v q (by simpa [upd_ne _ _ e] using hv)
  | @run t s k r w hp hx ha =>
    obtain ⟨P, _, hw, hm⟩ := h.busy t _ hp
    obtain ⟨hi, hg, P', hs', hw', hk⟩ := hm _ h.inv hw r w hx ha
    have ho := fun v (e : v ≠ t) => h.others hO hi hg v (by simpa using Ne.symm e)
    refine ⟨hi, fun v hv => ?_, fun v q hv => ?_⟩
    · by_cases e : v = t
      · subst e; simp at hv
      · exact (ho v e).1 (by simpa [upd_ne _ _ e] using hv)
    · by_cases e : v = t
      · subst e
        simp only [upd_self, Option.some.injEq] at hv
        subst hv
        exact ⟨P', hs', hw', hk⟩
      · exact (ho v e).2 q (by simpa [upd_ne _ _ e] using hv)
  | @done t a hp =>
    obtain ⟨P, _, hw, hm⟩ := h.busy t _ hp
    obtain ⟨hi, hg, hd⟩ := hO.done t a _ h.inv (hm _ h.inv hw)
    have ho := fun v (e : v ≠ t) => h.others hO hi hg v (by simpa using Ne.symm e)
    refine ⟨hi, fun v hv => ?_, fun v q hv => ?_⟩
    · by_cases e : v = t
      · subst e; exact hd
      · exact (ho v e).1 (by simpa [upd_ne _ _ e] using hv)
    · by_cases e : v = t
      · subst e; simp at hv
      · exact (ho v e).2 q (by simpa [upd_ne _ _ e] using hv)
  | env hx ha =>
    obtain ⟨hi, hg⟩ := hO.env _ _ _ h.inv ha hx
    have ho := fun v => h.others hO hi hg v (by simp)
    exact ⟨hi, fun v hv => (ho v).1 hv, fun v q hv => (ho v).2 q hv⟩

/-- **Soundness.** Every state of every run satisfies the outline. -/
theorem Sound.reaches (hO : O.Sound A) {w : M.World} (hi : O.inv w) (hd : ∀ t, O.idle t w) (hr : Reaches A w c) : O.Holds A c := by
  induction hr with
  | refl => exact Holds.start hi hd
  | tail _ hs ih => exact ih.step hO hs

theorem Holds.ended (h : O.Holds A c) {t : Nat} {a : M.Res} (hp : c.pool t = some (.ret a)) :
    O.post t a c.world := by
  obtain ⟨P, _, hw, hm⟩ := h.busy t _ hp
  exact hm _ h.inv hw

/-! ## Outlines by what a request relies on -/

/-- The outline whose steps keep, for every other request `v`, what `rely v` says. -/
def ofRely (inv : M.World → Prop) (rely : Nat → M.World → M.World → Prop) (idle : Nat → M.World → Prop)
    (post : Nat → M.Res → M.World → Prop) : Outline M where
  inv := inv
  guar u w w' := ∀ v, u ≠ some v → rely v w w'
  idle := idle
  post := post

theorem stable_ofRely {inv : M.World → Prop} {rely : Nat → M.World → M.World → Prop} {idle : Nat → M.World → Prop}
    {post : Nat → M.Res → M.World → Prop} {P : M.World → Prop} (h : ∀ w w', rely t w w' → P w → P w') :
    (ofRely inv rely idle post).Stable t P :=
  fun _ w w' hu _ _ hg hp => h w w' (hg t hu) hp

end Outline
end Conc.Sys
