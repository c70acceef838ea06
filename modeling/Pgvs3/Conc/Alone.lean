import Pgvs3.Conc.Prog
/-!
# One request on its own

`alone` runs a program with no other step in between; `Ensures` is the triple about it: whatever the
program returns from a world with `P`, the result and the world it leaves satisfy `Q`.
-/

namespace Conc.Sys

open List

/-- The results of a request that runs with no other step in between, each with the world it
leaves. -/
def alone (M : Sys) {α : Type} (t : Nat) : Prog M.Stmt M.Ans α → M.World → List (α × M.World)
  | .ret a, w => [(a, w)]
  | .ask s k, w => (M.exec t s w).flatMap fun x => alone M t (k x.1) x.2

section Ensures

variable {M : Sys} {t : Nat} {α β : Type}

variable {s : M.Stmt} {w w' : M.World} {a : α} {f : α → Prog M.Stmt M.Ans β} {p : Prog M.Stmt M.Ans α}

theorem mem_alone_ask {k : M.Ans s → Prog M.Stmt M.Ans α} :
    (a, w') ∈ alone M t (.ask s k) w ↔ ∃ r v, (r, v) ∈ M.exec t s w ∧ (a, w') ∈ alone M t (k r) v := by
  simp only [alone, mem_flatMap, Prod.exists]

theorem mem_alone_pure {b : α} : (a, w') ∈ alone M t (pure b) w ↔ a = b ∧ w' = w :=
  mem_singleton.trans (Iff.of_eq (Prod.mk.injEq _ _ _ _))

theorem mem_alone_last {a : M.Ans s} : (a, w') ∈ alone M t (Prog.stmt s) w ↔ (a, w') ∈ M.exec t s w := by
  constructor
  · intro hm
    obtain ⟨r, v, hx, hm⟩ := mem_alone_ask.1 hm
    obtain ⟨rfl, rfl⟩ := mem_alone_pure.1 hm
    exact hx
  · exact fun hx => mem_alone_ask.2 ⟨a, w', hx, mem_alone_pure.2 ⟨rfl, rfl⟩⟩

theorem mem_alone_bind {b : β} : ∀ {p : Prog M.Stmt M.Ans α} {w : M.World},
      (b, w') ∈ alone M t (p >>= f) w ↔ ∃ a v, (a, v) ∈ alone M t p w ∧ (b, w') ∈ alone M t (f a) v
  | .ret a, w => by
    constructor
    · exact fun hb => ⟨a, w, mem_singleton.2 rfl, hb⟩
    · rintro ⟨a', v, ha, hb⟩
      cases mem_singleton.1 ha
      exact hb
  | .ask s k, w => by
    rw [Prog.ask_bind, mem_alone_ask]
    constructor
    · rintro ⟨r, v, hx, hm⟩
      obtain ⟨a, v', ha, hb⟩ := mem_alone_bind.1 hm
      exact ⟨a, v', mem_alone_ask.2 ⟨r, v, hx, ha⟩, hb⟩
    · rintro ⟨a, v', ha, hb⟩
      obtain ⟨r, v, hx, hm⟩ := mem_alone_ask.1 ha
      exact ⟨r, v, hx, mem_alone_bind.2 ⟨a, v', hm, hb⟩⟩

theorem exists_mem_alone (h : ((alone M t p w).head?.map Prod.fst) = some a) : ∃ w', (a, w') ∈ alone M t p w := by
  obtain ⟨⟨b, w'⟩, hx, rfl⟩ := Option.map_eq_some_iff.1 h
  exact ⟨w', mem_of_head? hx⟩

variable (M t) in
/-- From `P`, whatever `p` returns on its own satisfies `Q`. -/
def Ensures (P : M.World → Prop) (p : Prog M.Stmt M.Ans α) (Q : α → M.World → Prop) : Prop :=
  ∀ w, P w → ∀ a w', (a, w') ∈ alone M t p w → Q a w'

variable {P P' : M.World → Prop} {Q : α → M.World → Prop}

theorem Ensures.ret (h : ∀ w, P w → Q a w) : Ensures M t P (pure a) Q := by
  intro w hw b w' hm
  cases mem_singleton.1 hm
  exact h w hw

theorem Ensures.bind {Q' : β → M.World → Prop}
    (hp : Ensures M t P p Q) (hf : ∀ a, Ensures M t (Q a) (f a) Q') : Ensures M t P (p >>= f) Q' := by
  intro w hw b w' hm
  obtain ⟨a, v, ha, hb⟩ := mem_alone_bind.1 hm
  exact hf a v (hp w hw a v ha) b w' hb

theorem Ensures.stmt {f : M.Ans s → Prog M.Stmt M.Ans α} (P' : M.Ans s → M.World → Prop)
    (hx : ∀ w, P w → ∀ r w', (r, w') ∈ M.exec t s w → P' r w') (hk : ∀ r, Ensures M t (P' r) (f r) Q) :
    Ensures M t P (Prog.stmt s >>= f) Q := by
  intro w hw a w' hm
  obtain ⟨r, v, hr, ha⟩ := mem_alone_ask.1 hm
  exact hk r v (hx w hw r v hr) a w' ha

end Ensures

end Conc.Sys
