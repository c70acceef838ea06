import Mathlib
/-!
# Tables as lists of pairs

A table is a list of keys with their values, the first entry of a key counts. `assign` puts a value
in place of what the key had, `erase` takes a key out; both are known by their lookups. In a list of
assignments the last one of a key counts (`last`).
-/

namespace Data

open List

variable {κ α : Type} [BEq κ] [LawfulBEq κ] {m : List (κ × α)} {k k' : κ} {v : α}

def erase (m : List (κ × α)) (k : κ) : List (κ × α) := m.filter (·.1 != k)

def assign (m : List (κ × α)) (k : κ) (v : α) : List (κ × α) := (k, v) :: erase m k

theorem mem_erase {e : κ × α} : e ∈ erase m k ↔ e ∈ m ∧ e.1 ≠ k := by
  simp [erase]

theorem mem_assign {e : κ × α} : e ∈ assign m k v ↔ e = (k, v) ∨ e ∈ m ∧ e.1 ≠ k := by
  rw [assign, mem_cons, mem_erase]

theorem lookup_filter (m : List (κ × α)) (p : κ → Bool) (k : κ) :
    (m.filter fun e => p e.1).lookup k = if p k then m.lookup k else none := by
  induction m with
  | nil => simp
  | cons e m ih =>
    obtain ⟨k', v⟩ := e
    by_cases hk : k = k'
    · subst hk
      cases hp : p k with
      | true => simp [hp]
      | false => simpa [hp] using ih
    · have hb : (k == k') = false := beq_eq_false_iff_ne.2 hk
      cases hp : p k' with
      | true => simp [hp, lookup_cons, hb, ih]
      | false => simpa [hp, lookup_cons, hb] using ih

theorem lookup_erase (m : List (κ × α)) (k k' : κ) : (erase m k).lookup k' = if k' == k then none else m.lookup k' := by
  rw [erase, lookup_filter m (· != k)]
  cases hk : k' == k <;> simp [bne, hk]

theorem lookup_assign (m : List (κ × α)) (k : κ) (v : α) (k' : κ) :
    (assign m k v).lookup k' = if k' == k then some v else m.lookup k' := by
  rw [assign, lookup_cons, lookup_erase]
  cases k' == k <;> rfl

theorem isSome_lookup : (m.lookup k).isSome = true ↔ k ∈ m.map Prod.fst := by
  rw [lookup_isSome_iff, mem_map]
  constructor
  · rintro ⟨e, he, hk⟩
    exact ⟨e, he, (beq_iff_eq.1 hk).symm⟩
  · rintro ⟨e, he, rfl⟩
    exact ⟨e, he, beq_self_eq_true _⟩

def last (m : List (κ × α)) (k : κ) : Option α := m.reverse.lookup k

omit [LawfulBEq κ] in
theorem last_cons (e : κ × α) (m : List (κ × α)) (k : κ) : last (e :: m) k = (last m k).or (if k == e.1 then some e.2 else none) := by
  rw [last, reverse_cons, lookup_append, lookup_cons, lookup_nil, last]
  cases k == e.1 <;> rfl

theorem isSome_last : (last m k).isSome = true ↔ k ∈ m.map Prod.fst := by
  rw [last, isSome_lookup, map_reverse, mem_reverse]

theorem lookup_foldl_assign {β : Type} (f : β → κ × α) (l : List β) (m : List (κ × α)) (k : κ) :
    (l.foldl (fun m b => assign m (f b).1 (f b).2) m).lookup k = (last (l.map f) k).or (m.lookup k) := by
  induction l generalizing m with
  | nil => rfl
  | cons b l ih =>
    rw [foldl_cons, ih, lookup_assign, map_cons, last_cons]
    cases k == (f b).1 <;> simp

end Data
