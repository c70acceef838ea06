/-!
# Machines that take one action at a time

Where each party's place in its program is part of the state, every interleaving is a list of
actions. `Machine.invariant` is the induction over a run whose actions all meet a condition.
-/

namespace Conc

structure Machine where
  State : Type
  Act : Type
  next : State → Act → Option State

namespace Machine

variable (M : Machine)

def run : M.State → List M.Act → Option M.State
  | s, [] => some s
  | s, a :: as =>
    match M.next s a with
    | some s' => run s' as
    | none => none

/-- Every action meets `ok` in the state in which it is taken. -/
def Allowed (ok : M.State → M.Act → Prop) : M.State → List M.Act → Prop
  | _, [] => True
  | s, a :: as => ok s a ∧ ∀ s', M.next s a = some s' → Allowed ok s' as

/-- Runs the actions and stops at one that does not meet `ok`. -/
def runIf (ok : M.State → M.Act → Prop) [∀ s a, Decidable (ok s a)] : M.State → List M.Act → Option M.State
  | s, [] => some s
  | s, a :: as =>
    if ok s a then
      match M.next s a with
      | some s' => runIf ok s' as
      | none => none
    else none

variable {M} {ok : M.State → M.Act → Prop}

variable {as : List M.Act} {s s' : M.State} {inv : M.State → Prop}

/-- What every allowed action keeps holds after every allowed run. -/
theorem invariant (hstep : ∀ s a s', inv s → ok s a → M.next s a = some s' → inv s') (hs : inv s)
    (hok : M.Allowed ok s as) (hrun : M.run s as = some s') : inv s' := by
  induction as generalizing s with
  | nil =>
    cases hrun
    exact hs
  | cons a as ih =>
    simp only [run] at hrun
    split at hrun
    · next t ht => exact ih (hstep s a t hs hok.1 ht) (hok.2 t ht) hrun
    · cases hrun

theorem allowed_true (s : M.State) (as : List M.Act) : M.Allowed (fun _ _ => True) s as := by
  induction as generalizing s with
  | nil => trivial
  | cons a as ih => exact ⟨trivial, fun s' _ => ih s'⟩

theorem Allowed.and {P : M.Act → Prop} (hok : M.Allowed ok s as) (hP : ∀ a ∈ as, P a) : M.Allowed (fun s a => ok s a ∧ P a) s as := by
  induction as generalizing s with
  | nil => trivial
  | cons a as ih =>
    have htail := fun b hb => hP b (List.mem_cons_of_mem a hb)
    exact ⟨⟨hok.1, hP a List.mem_cons_self⟩, fun s' hs' => ih (hok.2 s' hs') htail⟩

theorem run_invariant (hstep : ∀ s a s', inv s → M.next s a = some s' → inv s') (hs : inv s) (hrun : M.run s as = some s') : inv s' :=
  invariant (fun s a s' h _ hn => hstep s a s' h hn) hs (allowed_true s as) hrun

theorem runIf_spec [∀ s a, Decidable (ok s a)] (h : M.runIf ok s as = some s') : M.Allowed ok s as ∧ M.run s as = some s' := by
  induction as generalizing s with
  | nil => exact ⟨trivial, h⟩
  | cons a as ih =>
    simp only [runIf] at h
    split at h
    · next hok =>
      split at h
      · next t ht =>
        refine ⟨⟨hok, fun u hu => ?_⟩, ?_⟩
        · cases ht.symm.trans hu
          exact (ih h).1
        · simp only [run, ht]
          exact (ih h).2
      · cases h
    · cases h

end Machine

end Conc
