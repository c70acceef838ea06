import Pgvs3.Conc.Sessions
/-!
# Linearizability

A history is what the clients of an object see: their calls and the answers, in order, each with the
time on the clock. `Linearizes` says that a list of points, one for each operation that was answered
and perhaps some that were not yet, is an order of these operations that a sequential object
explains and that does not contradict the history. `Tracks` is the invariant of a proof that names
the moment at which each operation takes effect.
-/

namespace Conc

open List Function

variable {Op Reply State : Type}

/-- A failed call is answered by `none`. -/
inductive Event (Op Reply : Type) where
  | call (id : Nat) (op : Op) (time : Nat)
  | answer (id : Nat) (reply : Option Reply) (time : Nat)
deriving DecidableEq, Repr

structure Point (Op Reply : Type) where
  id : Nat
  op : Op
  time : Nat
  reply : Reply
deriving DecidableEq, Repr

/-- What a sequential object does: the reply and the new state of an operation at a time, unless it
fails. -/
abbrev SeqSpec (Op Reply State : Type) := Nat → State → Op → Option (Reply × State)

/-- Taken one after the other from the first state, the points give their replies and lead to the
second. -/
inductive Replays (spec : SeqSpec Op Reply State) : State → List (Point Op Reply) → State → Prop where
  | nil (s : State) : Replays spec s [] s
  | cons {s s' t : State} {p : Point Op Reply} {ps : List (Point Op Reply)} (hp : spec p.time s p.op = some (p.reply, s'))
      (hps : Replays spec s' ps t) : Replays spec s (p :: ps) t

variable {p : Point Op Reply} {ps : List (Point Op Reply)} {a b : Nat}

theorem Replays.snoc {spec : SeqSpec Op Reply State} {s t u : State}
    (h : Replays spec s ps t) (hp : spec p.time t p.op = some (p.reply, u)) : Replays spec s (ps ++ [p]) u := by
  induction h with
  | nil s => exact .cons hp (.nil u)
  | cons hq _ ih => exact .cons hq (ih hp)

def ids (ps : List (Point Op Reply)) : List Nat := ps.map Point.id

theorem mem_ids (h : p ∈ ps) : p.id ∈ ids ps := mem_map_of_mem h

@[simp] theorem ids_append (ps qs : List (Point Op Reply)) : ids (ps ++ qs) = ids ps ++ ids qs := map_append

@[simp] theorem ids_singleton (p : Point Op Reply) : ids [p] = [p.id] := rfl

def Before (ps : List (Point Op Reply)) (a b : Nat) : Prop := ∃ front back, ps = front ++ back ∧ a ∈ ids front ∧ b ∈ ids back

theorem Before.append (h : Before ps a b) (qs : List (Point Op Reply)) : Before (ps ++ qs) a b := by
  obtain ⟨front, back, rfl, ha, hb⟩ := h
  exact ⟨front, back ++ qs, append_assoc .., ha, by simp [hb]⟩

def Precedes (h : List (Event Op Reply)) (a b : Nat) : Prop :=
  ∃ front back, h = front ++ back ∧ (∃ r t, .answer a (some r) t ∈ front) ∧ ∃ op t, .call b op t ∈ back

/-- A new event puts only a new call behind the answers. -/
theorem Precedes.of_snoc {h : List (Event Op Reply)} {e : Event Op Reply} (hp : Precedes (h ++ [e]) a b) :
    Precedes h a b ∨ ∃ op t, e = .call b op t := by
  obtain ⟨front, back, heq, ha, op, t, hb⟩ := hp
  rcases eq_nil_or_concat' back with rfl | ⟨back, e', rfl⟩
  · cases hb
  · rw [← append_assoc] at heq
    obtain ⟨rfl, he⟩ := append_inj' heq rfl
    cases he
    rcases mem_append.1 hb with hb | hb
    · exact .inl ⟨front, back, rfl, ha, op, t, hb⟩
    · exact .inr ⟨op, t, (mem_singleton.1 hb).symm⟩

/-- The points order the answered operations, each between its call and its answer, as real time
does, and the sequential object gives every reply and ends in `final`. -/
structure Linearizes (spec : SeqSpec Op Reply State) (init final : State) (h : List (Event Op Reply))
    (ps : List (Point Op Reply)) : Prop where
  replays : Replays spec init ps final
  sorted : ps.Pairwise (·.time ≤ ·.time)
  nodup : (ids ps).Nodup
  answered : ∀ id r t, .answer id (some r) t ∈ h → ∃ p ∈ ps, p.id = id ∧ p.reply = r ∧ p.time ≤ t
  failed : ∀ id t, .answer id none t ∈ h → id ∉ ids ps
  called : ∀ p ∈ ps, ∃ t ≤ p.time, .call p.id p.op t ∈ h
  order : ∀ a b, Precedes h a b → b ∈ ids ps → Before ps a b

/-- Where a client is: `settled` once its operation has taken effect, or has failed and will have
none. -/
inductive Status (Op Reply : Type) where
  | idle
  | pending (id : Nat) (op : Op)
  | settled (id : Nat) (reply : Option Reply)

def Status.id : Status Op Reply → Option Nat
  | .idle => none
  | .pending id _ => some id
  | .settled id _ => some id

/-- What the history and the points so far have of a client's operation. `next` is the first number
not yet given to one. -/
def Placed (h : List (Event Op Reply)) (ps : List (Point Op Reply)) (now next : Nat) : Status Op Reply → Prop
  | .idle => True
  | .pending id op => id < next ∧ (∃ t ≤ now, .call id op t ∈ h) ∧ id ∉ ids ps ∧ ∀ r t, .answer id r t ∉ h
  | .settled id (some r) => id < next ∧ ∃ p ∈ ps, p.id = id ∧ p.reply = r
  | .settled id none => id < next ∧ id ∉ ids ps

namespace Placed

variable {h h' : List (Event Op Reply)} {ps ps' : List (Point Op Reply)} {now now' next next' : Nat} {st : Status Op Reply}

theorem id_lt (P : Placed h ps now next st) {id : Nat} (hid : st.id = some id) : id < next := by
  match st with
  | .pending _ _ | .settled _ (some _) | .settled _ none =>
    cases hid
    exact P.1

theorem mono (P : Placed h ps now next st) (hnow : now ≤ now') (hnext : next ≤ next') (hh : h ⊆ h') (hps : ps ⊆ ps')
    (hids : ∀ id, st.id = some id → id ∈ ids ps' → id ∈ ids ps)
    (hans : ∀ id r t, st.id = some id → .answer id r t ∈ h' → .answer id r t ∈ h) : Placed h' ps' now' next' st := by
  match st with
  | .idle => trivial
  | .pending id op =>
    obtain ⟨hlt, ⟨t, ht, hcall⟩, hid, hno⟩ := P
    exact ⟨Nat.lt_of_lt_of_le hlt hnext, ⟨t, Nat.le_trans ht hnow, hh hcall⟩, fun hm => hid (hids id rfl hm),
      fun r t hm => hno r t (hans id r t rfl hm)⟩
  | .settled id (some r) =>
    obtain ⟨hlt, p, hp, hrest⟩ := P
    exact ⟨Nat.lt_of_lt_of_le hlt hnext, p, hps hp, hrest⟩
  | .settled id none => exact ⟨Nat.lt_of_lt_of_le P.1 hnext, fun hm => P.2 (hids id rfl hm)⟩

end Placed

/-- The points so far linearize the history so far, and every client's operation is where its status
says. -/
structure Tracks (spec : SeqSpec Op Reply State) (init s : State) (h : List (Event Op Reply)) (ps : List (Point Op Reply))
    (now next : Nat) (status : Nat → Status Op Reply) : Prop extends Linearizes spec init s h ps where
  past : ∀ p ∈ ps, p.time ≤ now
  calls : ∀ id op t, .call id op t ∈ h → id < next
  answers : ∀ id r t, .answer id r t ∈ h → id < next
  placed : ∀ c, Placed h ps now next (status c)
  own : ∀ c d id, (status c).id = some id → (status d).id = some id → c = d

namespace Tracks

variable {spec : SeqSpec Op Reply State} {init s : State} {h : List (Event Op Reply)} {ps : List (Point Op Reply)}
  {now next id : Nat} {status : Nat → Status Op Reply}

theorem start (spec : SeqSpec Op Reply State) (init : State) (now next : Nat) :
    Tracks spec init init [] [] now next (fun _ => (.idle : Status Op Reply)) where
  replays := .nil init
  sorted := .nil
  nodup := .nil
  answered := nofun
  failed := nofun
  called := nofun
  order _ _ _ hb := nomatch hb
  past := nofun
  calls := nofun
  answers := nofun
  placed _ := trivial
  own := nofun

variable (T : Tracks spec init s h ps now next status)
include T

theorem wait {later : Nat} (hl : now ≤ later) :
    Tracks spec init s h ps later next status where
  __ := T
  past p hp := Nat.le_trans (T.past p hp) hl
  placed c := (T.placed c).mono hl (Nat.le_refl next) (List.Subset.refl h) (List.Subset.refl ps) (fun _ _ hm => hm) fun _ _ _ _ hm => hm

theorem id_lt_of_mem (hid : id ∈ ids ps) : id < next := by
  obtain ⟨p, hp, rfl⟩ := mem_map.1 hid
  obtain ⟨t, -, hcall⟩ := T.called p hp
  exact T.calls _ _ _ hcall

variable {c : Nat} {op : Op}

/-- The number of a client's new status is its old one or a new one, so nobody else has it. -/
theorem own_update {st : Status Op Reply}
    (hst : ∀ id, st.id = some id → (status c).id = some id ∨ next ≤ id) (d e id : Nat)
    (hd : (update status c st d).id = some id) (he : (update status c st e).id = some id) : d = e := by
  have hother : ∀ x, x ≠ c → (status x).id = some id → st.id ≠ some id := by
    intro x hx hxid hstid
    rcases hst id hstid with hcid | hnew
    · exact hx (T.own x c id hxid hcid)
    · exact absurd ((T.placed x).id_lt hxid) (Nat.not_lt.2 hnew)
  by_cases hdc : d = c <;> by_cases hec : e = c
  · rw [hdc, hec]
  · rw [hdc, update_self] at hd
    rw [update_of_ne hec] at he
    exact absurd hd (hother e hec he)
  · rw [update_of_ne hdc] at hd
    rw [hec, update_self] at he
    exact absurd he (hother d hdc hd)
  · rw [update_of_ne hdc] at hd
    rw [update_of_ne hec] at he
    exact T.own d e id hd he

theorem call (c : Nat) (op : Op) :
    Tracks spec init s (h ++ [.call next op now]) ps now (next + 1) (update status c (.pending next op)) := by
  have hold : ∀ id r t, .answer id r t ∈ h ++ [.call next op now] → .answer id r t ∈ h := fun _ _ _ hm => mem_of_mem_push hm nofun
  have hsub : h ⊆ h ++ [.call next op now] := subset_append_left h _
  refine { T with answered := ?_, failed := ?_, called := ?_, order := ?_, calls := ?_, answers := ?_, placed := ?_, own := ?_ }
  · exact fun id r t hm => T.answered id r t (hold id _ t hm)
  · exact fun id t hm => T.failed id t (hold id _ t hm)
  · intro p hp
    obtain ⟨t, ht, hcall⟩ := T.called p hp
    exact ⟨t, ht, hsub hcall⟩
  · intro a b hab hb
    rcases hab.of_snoc with hab | ⟨_, _, he⟩
    · exact T.order a b hab hb
    · -- the new operation has not taken effect
      cases he
      exact absurd (T.id_lt_of_mem hb) (Nat.lt_irrefl _)
  · intro id op' t hm
    rcases mem_append.1 hm with hm | hm
    · exact Nat.lt_succ_of_lt (T.calls id op' t hm)
    · cases mem_singleton.1 hm
      exact Nat.lt_succ_self next
  · exact fun id r t hm => Nat.lt_succ_of_lt (T.answers id r t (hold id r t hm))
  · intro d
    by_cases hdc : d = c
    · rw [hdc, update_self]
      exact ⟨Nat.lt_succ_self next, ⟨now, Nat.le_refl now, mem_append_right _ (mem_singleton.2 rfl)⟩,
        fun hid => absurd (T.id_lt_of_mem hid) (Nat.lt_irrefl _),
        fun r t hm => absurd (T.answers _ r t (hold _ r t hm)) (Nat.lt_irrefl _)⟩
    · rw [update_of_ne hdc]
      exact (T.placed d).mono (Nat.le_refl now) (Nat.le_succ next) hsub (List.Subset.refl ps) (fun _ _ hm => hm)
        fun id r t _ hm => hold id r t hm
  · refine T.own_update fun id hid => ?_
    cases hid
    exact .inr (Nat.le_refl next)

theorem point {r : Reply} {s' : State}
    (hc : status c = .pending id op) (hspec : spec now s op = some (r, s')) :
    Tracks spec init s' h (ps ++ [⟨id, op, now, r⟩]) now next (update status c (.settled id (some r))) := by
  have hplaced := T.placed c
  rw [hc] at hplaced
  obtain ⟨hlt, ⟨t, ht, hcall⟩, hnew, hno⟩ := hplaced
  have hcid : (status c).id = some id := by rw [hc]; rfl
  have hsub : ps ⊆ ps ++ [⟨id, op, now, r⟩] := subset_append_left ps _
  have hids : ∀ id', id' ∈ ids (ps ++ [⟨id, op, now, r⟩]) → id' ∈ ids ps ∨ id' = id := by
    intro id' hm
    simpa using hm
  refine { replays := T.replays.snoc hspec, calls := T.calls, answers := T.answers, sorted := ?_, nodup := ?_, answered := ?_,
           failed := ?_, called := ?_, order := ?_, past := ?_, placed := ?_, own := ?_ }
  · refine pairwise_append.2 ⟨T.sorted, pairwise_singleton .., fun p hp q hq => ?_⟩
    cases mem_singleton.1 hq
    exact T.past p hp
  · rw [ids_append, ids_singleton, nodup_append]
    refine ⟨T.nodup, nodup_singleton _, fun a ha b hb hab => hnew ?_⟩
    have hb' : b = id := mem_singleton.1 hb
    rwa [← hb', ← hab]
  · intro id' r' t' hm
    obtain ⟨p, hp, hrest⟩ := T.answered id' r' t' hm
    exact ⟨p, hsub hp, hrest⟩
  · intro id' t' hm hid
    rcases hids id' hid with hid | rfl
    · exact T.failed id' t' hm hid
    · exact hno _ _ hm
  · exact forall_push T.called ⟨t, ht, hcall⟩
  · intro a b hab hb
    rcases hids b hb with hb | rfl
    · exact (T.order a b hab hb).append _
    · -- what had been answered before the call is among the earlier points
      obtain ⟨front, back, rfl, ⟨r', t', ha⟩, -⟩ := hab
      obtain ⟨p, hp, hpid, -⟩ := T.answered a r' t' (mem_append_left _ ha)
      exact ⟨ps, _, rfl, hpid ▸ mem_ids hp, mem_singleton.2 rfl⟩
  · exact forall_push T.past (Nat.le_refl now)
  · intro d
    by_cases hdc : d = c
    · rw [hdc, update_self]
      exact ⟨hlt, _, mem_append_right _ (mem_singleton.2 rfl), rfl, rfl⟩
    · rw [update_of_ne hdc]
      refine (T.placed d).mono (Nat.le_refl now) (Nat.le_refl next) (List.Subset.refl h) hsub (fun id' hd hm => ?_) fun _ _ _ _ hm => hm
      rcases hids id' hm with hm | rfl
      · exact hm
      · exact absurd (T.own d c id' hd hcid) hdc
  · refine T.own_update fun id' hid => ?_
    cases hid
    exact .inl hcid

theorem fail (hc : status c = .pending id op) :
    Tracks spec init s h ps now next (update status c (.settled id none)) := by
  have hplaced := T.placed c
  rw [hc] at hplaced
  refine { T with placed := fun d => ?_, own := T.own_update fun id' hid => .inl ?_ }
  · by_cases hdc : d = c
    · rw [hdc, update_self]
      exact ⟨hplaced.1, hplaced.2.2.1⟩
    · rw [update_of_ne hdc]
      exact T.placed d
  · rw [hc]
    exact hid

theorem answer {r : Option Reply} (hc : status c = .settled id r) :
    Tracks spec init s (h ++ [.answer id r now]) ps now next (update status c .idle) := by
  have hplaced := T.placed c
  rw [hc] at hplaced
  have hcid : (status c).id = some id := by rw [hc]; rfl
  have hsub : h ⊆ h ++ [.answer id r now] := subset_append_left h _
  refine { T with answered := ?_, failed := ?_, called := ?_, order := ?_, calls := ?_, answers := ?_, placed := ?_, own := ?_ }
  · intro id' r' t' hm
    rcases mem_append.1 hm with hm | hm
    · exact T.answered id' r' t' hm
    · cases mem_singleton.1 hm
      obtain ⟨-, p, hp, hpid, hpr⟩ := hplaced
      exact ⟨p, hp, hpid, hpr, T.past p hp⟩
  · intro id' t' hm
    rcases mem_append.1 hm with hm | hm
    · exact T.failed id' t' hm
    · cases mem_singleton.1 hm
      exact hplaced.2
  · intro p hp
    obtain ⟨t, ht, hcall⟩ := T.called p hp
    exact ⟨t, ht, hsub hcall⟩
  · intro a b hab hb
    rcases hab.of_snoc with hab | ⟨_, _, he⟩
    · exact T.order a b hab hb
    · cases he
  · exact fun id' op' t' hm => T.calls id' op' t' (mem_of_mem_push hm nofun)
  · intro id' r' t' hm
    rcases mem_append.1 hm with hm | hm
    · exact T.answers id' r' t' hm
    · cases mem_singleton.1 hm
      exact (T.placed c).id_lt hcid
  · intro d
    by_cases hdc : d = c
    · rw [hdc, update_self]
      trivial
    · rw [update_of_ne hdc]
      refine (T.placed d).mono (Nat.le_refl now) (Nat.le_refl next) hsub (List.Subset.refl ps) (fun _ _ hm => hm)
        fun id' r' t' hd hm => ?_
      rcases mem_append.1 hm with hm | hm
      · exact hm
      · cases mem_singleton.1 hm
        exact absurd (T.own d c id hd hcid) hdc
  · exact T.own_update nofun

end Tracks

end Conc
