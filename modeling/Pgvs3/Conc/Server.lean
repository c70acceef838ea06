import Pgvs3.Conc.Prog
/-!
# A program and a server

A program asks its statements of a server that may answer each in several ways: `serve s w r w'`
says that from the state `w` the statement `s` can be answered by `r` and leave `w'`. `Runs` are the
runs of a program on its own, `Triple` says what holds at the end of every run.
-/

namespace Conc

variable {S : Type} {R : S → Type} {W α β : Type} {serve : (s : S) → W → R s → W → Prop}

inductive Runs (serve : (s : S) → W → R s → W → Prop) : Prog S R α → W → α → W → Prop
  | ret (a : α) (w : W) : Runs serve (.ret a) w a w
  | ask {s : S} {k : R s → Prog S R α} {r : R s} {w w' w'' : W} {a : α} (hs : serve s w r w')
      (hk : Runs serve (k r) w' a w'') : Runs serve (.ask s k) w a w''

namespace Runs

variable {f : α → Prog S R β} {w'' : W} {b : β}

theorem bind {p : Prog S R α} {w w' : W} {a : α} (hp : Runs serve p w a w')
    (hf : Runs serve (f a) w' b w'') : Runs serve (p >>= f) w b w'' := by
  induction hp with
  | ret a w => exact hf
  | ask hs _ ih => exact .ask hs (ih hf)

theorem of_bind : ∀ {p : Prog S R α} {w : W}, Runs serve (p >>= f) w b w'' → ∃ a w', Runs serve p w a w' ∧ Runs serve (f a) w' b w''
  | .ret a, w, h => ⟨a, w, .ret a w, h⟩
  | .ask _ _, _, .ask hs hk => by
    obtain ⟨a, w', hp, hf⟩ := of_bind hk
    exact ⟨a, w', .ask hs hp, hf⟩

theorem stmt {s : S} {r : R s} {w w' : W} (hs : serve s w r w') : Runs serve (Prog.stmt s) w r w' :=
  .ask hs (.ret r w')

end Runs

def Triple (serve : (s : S) → W → R s → W → Prop) (P : W → Prop) (p : Prog S R α) (Q : α → W → Prop) : Prop :=
  ∀ w a w', P w → Runs serve p w a w' → Q a w'

namespace Triple

variable {P P' : W → Prop} {Q Q' : α → W → Prop} {p : Prog S R α}

theorem ret {a : α} (h : ∀ w, P w → Q a w) : Triple serve P (.ret a) Q := by
  intro w b w' hw hr
  cases hr
  exact h w hw

theorem bind {f : α → Prog S R β} {Q' : β → W → Prop} (hp : Triple serve P p Q)
    (hf : ∀ a, Triple serve (Q a) (f a) Q') : Triple serve P (p >>= f) Q' := by
  intro w b w'' hw hr
  obtain ⟨a, w', hpa, hfb⟩ := hr.of_bind
  exact hf a w' b w'' (hp w a w' hw hpa) hfb

theorem stmt {s : S} {Q : R s → W → Prop} (h : ∀ w r w', P w → serve s w r w' → Q r w') : Triple serve P (Prog.stmt s) Q := by
  intro w r w' hw hr
  cases hr with
  | ask hs hk =>
    cases hk
    exact h w _ _ hw hs

theorem pre (h : ∀ w, P' w → P w) (hp : Triple serve P p Q) : Triple serve P' p Q :=
  fun w a w' hw => hp w a w' (h w hw)

theorem post (h : ∀ a w, Q a w → Q' a w) (hp : Triple serve P p Q) : Triple serve P p Q' :=
  fun w a w' hw hr => h a w' (hp w a w' hw hr)

end Triple
end Conc
