import Mathlib
/-!
# Programs over a shared world, and every interleaving of them

A `Prog` is the text of one request: a tree of statements, each of which is answered by the shared
world. A `Sys` says what a statement does (`exec`: no answer means that it waits), what can happen
with no request running (`env`) and what a request's end records (`done`). `Step` interleaves any
number of programs, one statement at a time, under a `Policy`.
-/

namespace Conc

/-- A program: it ends with a result, or asks a statement and goes on with the answer. -/
inductive Prog (S : Type) (R : S → Type) (α : Type) where
  | ret (a : α)
  | ask (s : S) (k : R s → Prog S R α)

namespace Prog

variable {S : Type} {R : S → Type} {α β : Type} {φ : S → Prop} {f : α → Prog S R β} {ψ : α → Prop} {p : Prog S R α}

def bind : Prog S R α → (α → Prog S R β) → Prog S R β
  | ret a, f => f a
  | ask s k, f => ask s fun r => (k r).bind f

instance : Monad (Prog S R) where
  pure := ret
  bind := bind

def stmt (s : S) : Prog S R (R s) := ask s ret

@[simp] theorem pure_eq (a : α) : (pure a : Prog S R α) = ret a := rfl
@[simp] theorem ret_bind (a : α) (f : α → Prog S R β) : (ret a >>= f) = f a := rfl
@[simp] theorem ask_bind (s : S) (k : R s → Prog S R α) (f : α → Prog S R β) : (ask s k >>= f) = ask s fun r => k r >>= f := rfl
@[simp] theorem stmt_bind (s : S) (f : R s → Prog S R β) : (stmt s >>= f) = ask s f := rfl

/-- Every statement the program can ask, whatever the answers before it, satisfies `φ`. -/
def All (φ : S → Prop) : Prog S R α → Prop
  | ret _ => True
  | ask s k => φ s ∧ ∀ r, (k r).All φ

@[simp] theorem all_ret (φ : S → Prop) (a : α) : (ret a : Prog S R α).All φ ↔ True := Iff.rfl

theorem All.bind : ∀ {p : Prog S R α}, p.All φ → (∀ a, (f a).All φ) → (p >>= f).All φ
  | ret a, _, hf => hf a
  | ask _ _, h, hf => ⟨h.1, fun r => All.bind (h.2 r) hf⟩

theorem All.stmt {s : S} {f : R s → Prog S R β} (hs : φ s) (hf : ∀ r, (f r).All φ) : (Prog.stmt s >>= f).All φ :=
  ⟨hs, hf⟩

theorem All.mono {ψ : S → Prop} (h : ∀ s, φ s → ψ s) : ∀ {p : Prog S R α}, p.All φ → p.All ψ
  | ret _, _ => trivial
  | ask _ _, hp => ⟨h _ hp.1, fun r => All.mono h (hp.2 r)⟩

theorem bind_assoc {γ : Type} (p : Prog S R α) (f : α → Prog S R β) (g : β → Prog S R γ) : p >>= f >>= g = p >>= fun a => f a >>= g := by
  induction p with
  | ret a => rfl
  | ask s k ih => exact congrArg (ask s) (funext ih)

/-- Put together from parts of `C`, with a result of `ψ`. -/
inductive Built (C : (β : Type) → Prog S R β → Prop) (ψ : α → Prop) : Prog S R α → Prop
  | ret {a : α} (h : ψ a) : Built C ψ (ret a)
  | bind {β : Type} {p : Prog S R β} {f : β → Prog S R α} (hp : C β p) (hf : ∀ b, Built C ψ (f b)) : Built C ψ (p >>= f)

theorem Built.andThen {C : (β : Type) → Prog S R β → Prop} {χ : β → Prop}
    (hp : Built C ψ p) (hf : ∀ a, ψ a → Built C χ (f a)) : Built C χ (p >>= f) := by
  induction hp with
  | ret h => exact hf _ h
  | bind hq _ ih =>
    rw [bind_assoc]
    exact .bind hq ih

theorem Built.all (hp : Built (fun _ p => p.All φ) ψ p) : p.All φ := by
  induction hp with
  | ret => trivial
  | bind hq _ ih => exact All.bind hq ih

end Prog

/-- A shared world and what statements, the environment and the end of a request do to it. -/
structure Sys where
  Stmt : Type
  Ans : Stmt → Type
  Res : Type
  World : Type
  Ev : Type
  exec : Nat → (s : Stmt) → World → List (Ans s × World)
  env : Ev → World → Option World
  done : Nat → Res → World → World

def upd {γ : Type} (f : Nat → γ) (i : Nat) (x : γ) : Nat → γ := fun j => if j = i then x else f j

variable {γ : Type}

@[simp] theorem upd_self (f : Nat → γ) (i : Nat) (x : γ) : upd f i x i = x := by simp [upd]

theorem upd_ne (f : Nat → γ) {i j : Nat} (x : γ) (h : j ≠ i) : upd f i x j = f j := by
  simp [upd, h]

namespace Sys

variable (M : Sys)

abbrev Req := Prog M.Stmt M.Ans M.Res

structure Conf where
  pool : Nat → Option M.Req
  world : M.World

def start (w : M.World) : M.Conf := ⟨fun _ => none, w⟩

structure Policy where
  spawn : Nat → M.World → M.Req → Prop
  step : (t : Nat) → (s : M.Stmt) → M.World → M.Ans s → Prop
  env : M.Ev → M.World → Prop

variable {M}

/-- One step of a run: a request arrives, runs one statement or ends, or the environment moves. -/
inductive Step (A : M.Policy) : M.Conf → M.Conf → Prop
  | spawn {c : M.Conf} {t : Nat} {p : M.Req} (hp : c.pool t = none) (ha : A.spawn t c.world p) :
      Step A c ⟨upd c.pool t (some p), c.world⟩
  | run {c : M.Conf} {t : Nat} {s : M.Stmt} {k : M.Ans s → M.Req} {r : M.Ans s} {w : M.World}
      (hp : c.pool t = some (.ask s k)) (hx : (r, w) ∈ M.exec t s c.world) (ha : A.step t s c.world r) :
      Step A c ⟨upd c.pool t (some (k r)), w⟩
  | done {c : M.Conf} {t : Nat} {a : M.Res} (hp : c.pool t = some (.ret a)) :
      Step A c ⟨upd c.pool t none, M.done t a c.world⟩
  | env {c : M.Conf} {e : M.Ev} {w : M.World} (hx : M.env e c.world = some w) (ha : A.env e c.world) :
      Step A c ⟨c.pool, w⟩

/-- The states that runs under `A` reach from the world `w` with no request running. -/
def Reaches (A : M.Policy) (w : M.World) (c : M.Conf) : Prop :=
  Relation.ReflTransGen (Step A) (M.start w) c

variable {c d : M.Conf}

/-! ## Schedules -/

/-- A choice of the scheduler; `run t i` takes the `i`-th answer to the statement of request `t`. -/
inductive Move (M : Sys) where
  | spawn (t : Nat) (p : M.Req)
  | run (t i : Nat)
  | done (t : Nat)
  | env (e : M.Ev)

/-- A policy that can be evaluated on the steps of a schedule. -/
class Policy.Decides (A : M.Policy) where
  step : ∀ t s w r, Decidable (A.step t s w r)
  env : ∀ e w, Decidable (A.env e w)

section Schedules

variable (A : M.Policy) [A.Decides]

instance (t : Nat) (s : M.Stmt) (w : M.World) (r : M.Ans s) : Decidable (A.step t s w r) := Policy.Decides.step t s w r

instance (e : M.Ev) (w : M.World) : Decidable (A.env e w) := Policy.Decides.env e w

/-- The state after one move, if the move is possible and not forbidden. -/
def next (c : M.Conf) : Move M → Option M.Conf
  | .spawn t p => match c.pool t with
    | none => some ⟨upd c.pool t (some p), c.world⟩
    | some _ => none
  | .run t i => match c.pool t with
    | some (.ask s k) => match (M.exec t s c.world)[i]? with
      | some (r, w) => if A.step t s c.world r then some ⟨upd c.pool t (some (k r)), w⟩ else none
      | none => none
    | _ => none
  | .done t => match c.pool t with
    | some (.ret a) => some ⟨upd c.pool t none, M.done t a c.world⟩
    | _ => none
  | .env e => match M.env e c.world with
    | some w => if A.env e c.world then some ⟨c.pool, w⟩ else none
    | none => none

def replay (c : M.Conf) : List (Move M) → Option M.Conf
  | [] => some c
  | m :: ms => match next A c m with
    | some d => replay d ms
    | none => none

/-- The requests that the schedule starts may start anywhere. -/
def Policy.Starts (A : M.Policy) : List (Move M) → Prop
  | [] => True
  | .spawn t p :: ms => (∀ w, A.spawn t w p) ∧ A.Starts ms
  | _ :: ms => A.Starts ms

variable {A}

variable {m : Move M} {ms : List (Move M)} {w : M.World} {t : Nat}

theorem next_step (ha : ∀ t p w, m = .spawn t p → A.spawn t w p) (h : next A c m = some d) : Step A c d := by
  cases m with
  | spawn t p =>
    simp only [next] at h
    split at h
    · next hp => cases h; exact .spawn hp (ha _ _ _ rfl)
    · cases h
  | run t i =>
    simp only [next] at h
    split at h
    · next s k hp =>
      split at h
      · next r w hi =>
        split at h
        · next hs => cases h; exact .run hp (List.mem_of_getElem? hi) hs
        · cases h
      · cases h
    · cases h
  | done t =>
    simp only [next] at h
    split at h
    · next a hp => cases h; exact .done hp
    · cases h
  | env e =>
    simp only [next] at h
    split at h
    · next w hx =>
      split at h
      · next he => cases h; exact .env hx he
      · cases h
    · cases h

theorem replay_steps (ha : A.Starts ms) (h : replay A c ms = some d) : Relation.ReflTransGen (Step A) c d := by
  induction ms generalizing c with
  | nil => cases h; exact .refl
  | cons m ms ih =>
    simp only [replay] at h
    split at h
    · next e he =>
      cases m with
      | spawn t p => exact .head (next_step (fun _ _ w hm => by cases hm; exact ha.1 w) he) (ih ha.2 h)
      | _ => exact .head (next_step (fun _ _ _ hm => by cases hm) he) (ih ha h)
    · cases h

theorem reaches_of_replay (ha : A.Starts ms) (f : M.Conf → Bool)
    (h : (replay A (M.start w) ms).any f = true) : ∃ c, Reaches A w c ∧ f c = true := by
  cases hc : replay A (M.start w) ms with
  | none => simp [hc] at h
  | some c => exact ⟨c, replay_steps ha hc, by simpa [hc] using h⟩

def spawned : List (Move M) → List Nat
  | [] => []
  | .spawn t _ :: ms => t :: spawned ms
  | _ :: ms => spawned ms

theorem next_pool (h : next A c m = some d) (hm : t ∉ spawned [m]) (hp : c.pool t = none) : d.pool t = none := by
  cases m with
  | spawn u p =>
    simp only [next] at h
    split at h
    · cases h
      simp only [spawned, List.mem_singleton] at hm
      exact (upd_ne _ _ hm).trans hp
    · cases h
  | run u i =>
    simp only [next] at h
    split at h
    · next s k hu =>
      split at h
      · split at h
        · cases h
          have hne : t ≠ u := fun he => by rw [← he, hp] at hu; cases hu
          exact (upd_ne _ _ hne).trans hp
        · cases h
      · cases h
    · cases h
  | done u =>
    simp only [next] at h
    split at h
    · cases h
      by_cases he : t = u
      · exact he ▸ upd_self _ _ _
      · exact (upd_ne _ _ he).trans hp
    · cases h
  | env e =>
    simp only [next] at h
    split at h
    · split at h
      · cases h
        exact hp
      · cases h
    · cases h

theorem replay_pool (h : replay A c ms = some d) (hm : t ∉ spawned ms) (hp : c.pool t = none) : d.pool t = none := by
  induction ms generalizing c with
  | nil => cases h; exact hp
  | cons m ms ih =>
    simp only [replay] at h
    split at h
    · next e he =>
      cases m with
      | spawn u p =>
        simp only [spawned, List.mem_cons, not_or] at hm
        exact ih h hm.2 (next_pool he (by simpa [spawned] using hm.1) hp)
      | _ => exact ih h hm (next_pool he (by simp [spawned]) hp)
    · cases h

theorem quiescent_of_replay (ha : A.Starts ms) (f : M.Conf → Bool)
    (h : ((replay A (M.start w) ms).any fun c => f c && (spawned ms).all fun t => (c.pool t).isNone) = true) :
    ∃ c, Reaches A w c ∧ (∀ t, c.pool t = none) ∧ f c = true := by
  cases hc : replay A (M.start w) ms with
  | none => simp [hc] at h
  | some c =>
    simp only [hc, Option.any_some, Bool.and_eq_true, List.all_eq_true, Option.isNone_iff_eq_none] at h
    refine ⟨c, replay_steps ha hc, fun t => ?_, h.1⟩
    by_cases ht : t ∈ spawned ms
    · exact h.2 t ht
    · exact replay_pool hc ht rfl

end Schedules

end Sys
end Conc
