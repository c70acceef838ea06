import Pgvs3.Conc.Alone
import Pgvs3.Tier.Request
/-!
# A key that is gone

`Gone` is what a completed delete leaves: nothing at the origin, nothing but tombstones in the two
namespaces, no remembered metadata.
-/

namespace Pgvs3.Tier

open Conc Sys List

def Dead (o : Option Row) : Prop := ∀ r ∈ o, (versionOf r).isDeleted = true

theorem Dead.none : Dead none := nofun

theorem Dead.filter {o : Option Row} (h : Dead o) (f : Row → Bool) : Dead (o.filter f) :=
  fun r hr => h r (Option.filter_eq_some_iff.1 hr).1

def Fetched.negative : Fetched → Bool
  | .found _ | .row _ => false
  | _ => true

structure Gone (w : World) : Prop where
  origin : w.origin = none
  wb : Dead w.wb
  rc : Dead w.rc
  ometa : w.ometa = none
  /-- No waiter has an object on its way. -/
  inbox : ∀ t r, w.inbox t = some r → r.negative = true

/-- No Head and no Open on its own finds the object. -/
def Unreadable (N : Naming) (w : World) : Prop :=
  ∀ t g n rng v w', (.found v, w') ∉ alone (sys N) t (head g) w ∧ (.found v, w') ∉ alone (sys N) t (openObject N g n rng) w

namespace Gone

variable {N : Naming} {g : Gateway} {t : Nat} {s : Stmt} {w : World} {α : Type} {φ : α → Prop}

/-- The statements that a read asks about a key that is gone. -/
def Asked : Stmt → Bool
  | .clock | .lockKey _ | .unlockKey _ | .rows | .originMeta | .cancelled | .originRead | .join _ | .wait => true
  | .finish _ r => r.negative
  | .db .acquireLease | .attempt (.releaseLease _) => true
  | _ => false

theorem step (hs : Asked s = true) {w' : World} {r : s.Ans} (h : Gone w) (hx : (r, w') ∈ Tier.exec N t s w) :
    Gone w' := by
  have hupd : ∀ {u : Update} {r : Option u.Ans}, (r, w') ∈ execUpdate t u w → Gone (u.apply w).2 → Gone w' := by
    intro u r hx hu
    rcases execUpdate_cases hx with ⟨_, rfl⟩ | ⟨_, rfl, _⟩
    · exact h
    · exact hu
  cases s with
  | db u =>
    cases u with
    | acquireLease =>
      refine hupd hx ?_
      simp only [Update.apply, acquireFillLease]
      split
      · exact ⟨h.origin, h.wb, h.rc, h.ometa, h.inbox⟩
      · exact h
    | _ => cases hs
  | attempt u =>
    cases u with
    | releaseLease owner => exact hupd hx ⟨h.origin, h.wb, h.rc, h.ometa, h.inbox⟩
    | _ => cases hs
  | lockKey g =>
    simp only [Tier.exec] at hx
    split at hx
    · cases mem_singleton.1 hx
      exact ⟨h.origin, h.wb, h.rc, h.ometa, h.inbox⟩
    · cases hx
  | unlockKey g =>
    cases mem_singleton.1 hx
    split
    · exact ⟨h.origin, h.wb, h.rc, h.ometa, h.inbox⟩
    · exact h
  | join k =>
    have hw : w' = (w.enter t k).2 := congrArg Prod.snd (mem_singleton.1 hx)
    rw [hw, World.enter]
    split <;> exact ⟨h.origin, h.wb, h.rc, h.ometa, h.inbox⟩
  | finish k r =>
    cases mem_singleton.1 hx
    simp only [World.land]
    split
    · exact h
    · refine ⟨h.origin, h.wb, h.rc, h.ometa, fun u r' hr => ?_⟩
      simp only at hr
      split at hr
      · cases hr
        exact hs
      · exact h.inbox u r' hr
  | wait =>
    have hleave : Gone (w.leave t) := by
      refine ⟨h.origin, h.wb, h.rc, h.ometa, fun u r' hr => ?_⟩
      simp only [World.leave] at hr
      split at hr
      · cases hr
      · exact h.inbox u r' hr
    exact (mem_wait_cases hx).1 ▸ hleave
  | clock =>
    cases mem_singleton.1 hx
    exact h
  | rows | originMeta | cancelled | originRead =>
    rcases mem_cons.1 hx with hm | hm
    · cases hm
      exact h
    · cases mem_singleton.1 hm
      exact h
  | _ => cases hs

theorem lookup {now : Nat} (h : Gone w) : (Rows.mk now w.wb w.rc).lookup = none ∨
      ∃ side r, (Rows.mk now w.wb w.rc).lookup = some (side, r) ∧ (versionOf r).isDeleted = true := by
  simp only [Rows.lookup]
  split
  · next r hr => exact .inr ⟨_, r, rfl, h.wb r (Option.filter_eq_some_iff.1 hr).1⟩
  · cases hr : liveRow w.rc now with
    | none => exact .inl rfl
    | some r => exact .inr ⟨_, r, rfl, h.rc r (Option.filter_eq_some_iff.1 hr).1⟩

def Tells : (s : Stmt) → s.Ans → Prop
  | .rows, a => ∀ s, a = some s → s.lookup = none ∨ ∃ side r, s.lookup = some (side, r) ∧ (versionOf r).isDeleted = true
  | .originMeta, a => ∀ m now, a = some (m, now) → m = none
  | .originRead, a | .wait, a => a.negative = true
  | _, _ => True

theorem tells {w' : World} {r : s.Ans} (h : Gone w) (hx : (r, w') ∈ Tier.exec N t s w) : Tells s r := by
  cases s with
  | rows =>
    rintro s rfl
    rcases mem_cons.1 hx with hm | hm
    · cases hm
      exact h.lookup
    · cases mem_singleton.1 hm
  | originMeta =>
    rintro m now rfl
    rcases mem_cons.1 hx with hm | hm
    · cases hm
      exact h.ometa
    · cases mem_singleton.1 hm
  | originRead =>
    rcases mem_cons.1 hx with hm | hm
    · cases hm
      simp only [World.originAns, h.origin]
      rfl
    · cases mem_singleton.1 hm
      rfl
  | wait =>
    rcases (mem_wait_cases hx).2 with hr | rfl
    · exact h.inbox t _ hr
    · rfl
  | _ => trivial

theorem stmt {f : s.Ans → Req α} {Q : α → World → Prop} (hs : Asked s = true)
    (hk : ∀ r, Tells s r → Ensures (sys N) t Gone (f r) Q) : Ensures (sys N) t Gone (Tier.ask s >>= f) Q := by
  refine Ensures.stmt (fun r w => Gone w ∧ Tells s r) (fun w hw r w' hx => ?_) fun r w hw => ?_
  · exact ⟨hw.step hs hx, hw.tells hx⟩
  · exact hk r hw.2 w hw.1

theorem ret {a : α} (h : φ a) : Ensures (sys N) t Gone (pure a) fun a w => Gone w ∧ φ a :=
  Ensures.ret fun _ hw => ⟨hw, h⟩

theorem andThen {β : Type} {p : Req α} {f : α → Req β} {Q : β → World → Prop}
    (hp : Ensures (sys N) t Gone p fun a w => Gone w ∧ φ a) (hf : ∀ a, φ a → Ensures (sys N) t Gone (f a) Q) :
    Ensures (sys N) t Gone (p >>= f) Q :=
  hp.bind fun a w hw => hf a hw.2 w hw.1

/-! ## Head -/

def Absent : Res → Prop := fun r => ∀ v, r ≠ .found v

theorem coalesceHead : Ensures (sys N) t Gone (Tier.coalesceHead g) fun f w => Gone w ∧ f.negative = true := by
  refine stmt rfl fun b _ => ?_
  split
  · refine stmt rfl fun f hf => ?_
    exact stmt hf fun _ _ => ret hf
  · exact stmt rfl fun f hf => ret hf

/-- Without a row, the origin refuses. -/
def Refused (e : Except Res Resolution) : Prop := ∃ r, e = .error r ∧ Absent r

theorem refused_notFound : Refused (.error .notFound) := ⟨_, rfl, nofun⟩
theorem refused_failed : Refused (.error .failed) := ⟨_, rfl, nofun⟩

theorem validate (deleteStale : Bool) : Ensures (sys N) t Gone (Tier.validate g deleteStale none) fun e w => Gone w ∧ Refused e := by
  refine stmt rfl fun now _ => andThen coalesceHead fun f hf => ?_
  cases f with
  | found o => cases hf
  | missing => exact ret refused_notFound
  | _ => exact ret refused_failed

theorem resolveMiss (deleteStale : Bool) : Ensures (sys N) t Gone (Tier.resolveMiss g deleteStale) fun e w => Gone w ∧ Refused e := by
  unfold Tier.resolveMiss
  split
  · refine stmt rfl fun a ha => ?_
    rcases a with _ | ⟨m, now⟩
    · exact ret refused_failed
    · cases ha m now rfl
      exact validate deleteStale
  · exact validate deleteStale

/-- What `resolveCache` can say: the object is not there, or, without asking the origin, that no row
is. -/
theorem resolveCache (deleteStale skip : Bool) : Ensures (sys N) t Gone (Tier.resolveCache g deleteStale skip)
    fun e w => Gone w ∧ (Refused e ∨ skip = true ∧ e = .ok ⟨none, ⟨0, [], []⟩, none, false, false⟩) := by
  refine stmt rfl fun a ha => ?_
  rcases a with _ | s
  · exact ret (.inl refused_failed)
  · rcases ha s rfl with hl | ⟨side, r, hl, hd⟩
    · simp only [hl]
      split
      · next hs => exact ret (.inr ⟨hs, rfl⟩)
      · intro w hw e w' hm
        exact (resolveMiss deleteStale w hw e w' hm).imp_right .inl
    · simp only [hl]
      split
      · exact ret (.inl refused_notFound)
      · next hv => rw [hv] at hd; cases hd
      · next hv => rw [hv] at hd; cases hd

theorem head : Ensures (sys N) t Gone (Tier.head g) fun r w => Gone w ∧ Absent r := by
  refine andThen (resolveCache false false) fun e he => ?_
  rcases he with ⟨r, rfl, hr⟩ | ⟨hs, _⟩
  · exact ret hr
  · cases hs

/-! ## Open -/

theorem probe : Ensures (sys N) t Gone Tier.probe fun p w => Gone w ∧ ∀ f, p = some f → f.negative = true := by
  refine stmt rfl fun a ha => ?_
  rcases a with _ | s
  · exact ret fun f hf => by cases hf; rfl
  · rcases ha s rfl with hl | ⟨side, r, hl, hd⟩
    · simp only [hl]
      exact ret nofun
    · simp only [hl]
      split
      · exact ret fun f hf => by cases hf; rfl
      · exact ret fun f hf => by cases hf; rfl
      · next hv => rw [hv] at hd; cases hd

theorem acquireFill : ∀ n, Ensures (sys N) t Gone (Tier.acquireFill n) fun e w => Gone w ∧ ∀ f, e = .error f → f.negative = true
  | 0 => ret fun f hf => by cases hf; rfl
  | n + 1 => by
    refine andThen probe fun p hp => ?_
    rcases p with _ | f
    · refine stmt rfl fun a _ => ?_
      rcases a with _ | _ | owner
      · exact ret fun f hf => by cases hf; rfl
      · exact acquireFill n
      · refine andThen probe fun p hp => ?_
        rcases p with _ | f
        · exact ret nofun
        · exact stmt rfl fun _ _ => ret fun f' hf => by cases hf; exact hp f rfl
    · exact ret fun f' hf => by cases hf; exact hp f rfl

theorem fetch (owner : Nat) : Ensures (sys N) t Gone (Tier.fetch N g owner) fun f w => Gone w ∧ f.negative = true := by
  refine stmt rfl fun f hf => ?_
  cases f with
  | found o => cases hf
  | _ => exact ret rfl

theorem fillOnce (n : Nat) : Ensures (sys N) t Gone (Tier.fillOnce N g n) fun f w => Gone w ∧ f.negative = true := by
  refine stmt rfl fun _ _ => andThen (acquireFill n) fun e he => ?_
  rcases e with f | owner
  · exact stmt rfl fun _ _ => ret (he f rfl)
  · refine andThen (fetch owner) fun f hf => ?_
    refine stmt rfl fun lost _ => stmt rfl fun _ _ => stmt rfl fun _ _ => ret ?_
    split
    · rfl
    · exact hf

theorem coalesceFill (n : Nat) : Ensures (sys N) t Gone (Tier.coalesceFill N g n) fun f w => Gone w ∧ f.negative = true := by
  refine stmt rfl fun b _ => ?_
  split
  · exact andThen (fillOnce n) fun f hf => stmt hf fun _ _ => ret hf
  · exact stmt rfl fun f hf => ret hf

theorem absent_notFound : Absent .notFound := nofun
theorem absent_failed : Absent .failed := nofun

theorem openPending (rng : ByteRange) : Ensures (sys N) t Gone (Tier.openPending rng) fun r w => Gone w ∧ Absent r := by
  refine stmt rfl fun f hf => ?_
  cases f with
  | found o => cases hf
  | missing => exact ret absent_notFound
  | _ => exact ret absent_failed

theorem openMiss (n : Nat) (rng : ByteRange) : Ensures (sys N) t Gone (Tier.openMiss N g n rng) fun r w => Gone w ∧ Absent r := by
  unfold Tier.openMiss
  split
  · refine stmt rfl fun f hf => ?_
    cases f with
    | found o => cases hf
    | missing => exact ret absent_notFound
    | _ => exact ret absent_failed
  · refine andThen (coalesceFill n) fun f hf => ?_
    cases f with
    | found | row => cases hf
    | missing => exact ret absent_notFound
    | failed => exact ret absent_failed
    | _ => exact openPending rng

theorem openObject (n : Nat) (rng : ByteRange) : Ensures (sys N) t Gone (Tier.openObject N g n rng) fun r w => Gone w ∧ Absent r := by
  refine andThen (resolveCache true _) fun e he => ?_
  rcases he with ⟨r, rfl, hr⟩ | ⟨hs, rfl⟩
  · exact ret hr
  · simp only [hs, and_self, if_true]
    exact openMiss n rng

theorem unreadable (h : Gone w) : Unreadable N w := by
  intro t g n rng v w'
  exact ⟨fun hm => (head w h _ w' hm).2 v rfl, fun hm => (openObject n rng w h _ w' hm).2 v rfl⟩

end Gone

end Pgvs3.Tier
