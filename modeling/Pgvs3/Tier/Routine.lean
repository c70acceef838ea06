import Pgvs3.Conc.History
import Pgvs3.Tier.Shape
/-!
# What writes have in common

Around its own statements every write has the read-only check, the key's lock and the precondition.
An outline that carries an assertion through quiet statements (`Routine`) meets a whole write once
it meets what is between them.
-/

namespace Pgvs3.Tier

open Conc Sys

variable {N : Naming} {H : Type} {O : Observer (sys N) H} {Ω : Outline O.sys} {A : O.sys.Policy} {t : Nat}
  {P : World × H → Prop} {Q : Res → World × H → Prop}

/-- Quiet statements keep `P` before and `Q` after the write, and from `P` the write can be refused.
-/
structure Routine (Ω : Outline O.sys) (A : O.sys.Policy) (t : Nat) (P : World × H → Prop) (Q : Res → World × H → Prop) : Prop where
  before : ∀ {α : Type} {p : Req α}, Asks Stmt.quiet p → Ω.Meets A t p P fun _ => P
  after : ∀ (a : Res) {α : Type} {p : Req α}, Asks Stmt.quiet p → Ω.Meets A t p (Q a) fun _ => Q a
  refused : ∀ x, P x → Q .failed x ∧ Q .precondition x ∧ Q .conflict x

namespace Routine

variable {g : Gateway} {p : Req Res} {body : Body} {pre : Precondition} (R : Routine Ω A t P Q)

include R

theorem failed : Ω.Meets A t (pure .failed) P Q := fun x _ hx => (R.refused x hx).1

theorem ask {s : Stmt} {f : s.Ans → Req Res} (hs : s.quiet = true) (hf : ∀ r, Ω.Meets A t (f r) P Q) :
    Ω.Meets A t (Tier.ask s >>= f) P Q :=
  (R.before (p := Tier.ask s) ⟨hs, fun _ => trivial⟩).bind hf

theorem requireWrite (hp : Ω.Meets A t p P Q) : Ω.Meets A t (Tier.requireWrite g p) P Q := by
  unfold Tier.requireWrite
  split
  · exact R.failed
  · exact hp

theorem withLockWrite (hp : Ω.Meets A t p P Q) : Ω.Meets A t (Tier.withLockWrite g p) P Q := by
  refine (R.before lockWrite_quiet).bind fun b => ?_
  split
  · exact hp.bind fun a => (R.after a releaseWrite_quiet).bind fun _ _ _ hx => hx
  · exact R.failed

theorem resolve {f : Except Res Precondition → Req Res} (he : ∀ a, f (.error a) = pure a)
    (hf : ∀ pre', Ω.Meets A t (f (.ok pre')) P Q) : Ω.Meets A t (resolvePrecondition pre >>= f) P Q := by
  have hquiet : Ω.Meets A t (resolvePrecondition pre) P fun e x => P x ∧ ∀ a, e = .error a → Q a x := by
    unfold resolvePrecondition
    split
    · exact fun x _ hx => ⟨hx, nofun⟩
    · refine (R.before (p := Tier.ask .rows) ⟨rfl, fun _ => trivial⟩).bind fun s => ?_
      split
      · exact fun x _ hx => ⟨hx, fun a ha => by cases ha; exact (R.refused x hx).1⟩
      · refine fun x _ hx => ⟨hx, fun a ha => ?_⟩
        rcases resolveWith_error ha with rfl | rfl
        · exact (R.refused x hx).2.1
        · exact (R.refused x hx).2.2
  refine hquiet.bind fun e => ?_
  cases e with
  | error a =>
    rw [he]
    exact fun x _ hx => hx.2 a rfl
  | ok pre' => exact (hf pre').pre fun x _ hx => hx.1

theorem upload (hpending : Ω.Meets A t (uploadPending N g body) P Q)
    (hthrough : ∀ pre, Ω.Meets A t (uploadThrough N g body pre) P Q) : Ω.Meets A t (uploadWithOptions N g body pre) P Q := by
  refine R.requireWrite (R.withLockWrite (R.resolve (fun _ => rfl) fun pre => ?_))
  dsimp only
  split
  · exact hpending
  · exact hthrough pre

theorem complete
    (hback : Ω.Meets A t (do
      match ← Tier.ask (.db (.complete (N.s3ETag body) body none [] false none)) with
      | none => return .failed
      | some _ =>
        fenceReadCache N
        return .written (N.s3ETag body)) P Q)
    (hcond : ∀ exp base, Ω.Meets A t (completeConditional N g body exp base) P Q) :
    Ω.Meets A t (completeUpload N g body pre) P Q := by
  have hchecked : ∀ exp base, Ω.Meets A t (completeChecked N g body pre exp base) P Q := by
    intro exp base
    refine R.resolve (fun _ => rfl) fun pre => ?_
    dsimp only
    split
    · exact hcond exp base
    · exact fun x _ hx => (R.refused x hx).2.1
  refine R.requireWrite (R.ask rfl fun now => R.withLockWrite ?_)
  unfold completeLocked
  split
  · exact hback
  · refine R.ask rfl fun r => ?_
    split
    · exact hchecked _ _
    · exact hchecked _ _
    · exact R.failed

theorem delete (hd : Ω.Meets A t (deleteLocked N) P Q) : Ω.Meets A t (Tier.delete N g) P Q := R.requireWrite (R.withLockWrite hd)

theorem deleteMany (hd : Ω.Meets A t (deleteLocked N) P Q) : Ω.Meets A t (Tier.deleteMany N g) P Q :=
  R.requireWrite (R.ask rfl fun _ => hd.bind fun a =>
    (R.after a (p := Tier.ask (.unlockKey g.id)) ⟨rfl, fun _ => trivial⟩).bind fun _ _ _ hx => hx)

end Routine

end Pgvs3.Tier
