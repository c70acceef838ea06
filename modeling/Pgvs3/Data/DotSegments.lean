import Pgvs3.Data.Text
/-!
# Dot segments

A path is the list of its segments. `removeDots` takes its dot segments out as the reader of a URL
does. Seen from a directory, a path climbs some levels up and goes down from there (`walk_eq`).
-/

namespace Data

open List

/-- One segment further: `.` stays, `..` goes up, and not above the root. -/
def enter (dir : List (List Char)) (seg : List Char) : List (List Char) :=
  if seg = ['.'] then dir else if seg = ['.', '.'] then dir.dropLast else dir ++ [seg]

def walk (dir segs : List (List Char)) : List (List Char) := segs.foldl enter dir

/-- A dot segment at the end leaves a slash there. -/
def removeDots (segs : List (List Char)) : List (List Char) :=
  walk [] segs ++ if segs.getLast? = some ['.'] ∨ segs.getLast? = some ['.', '.'] then [[]] else []

def stripEnd (segs : List (List Char)) : List (List Char) :=
  (segs.reverse.dropWhile (· = [])).reverse

def climbBy (x : Nat × List (List Char)) (seg : List Char) : Nat × List (List Char) :=
  if seg = ['.'] then x
  else if seg = ['.', '.'] then (if x.2 = [] then (x.1 + 1, []) else (x.1, x.2.dropLast))
  else (x.1, x.2 ++ [seg])

/-- The levels that a path goes up, and the way down from there. -/
def climb (segs : List (List Char)) : Nat × List (List Char) := segs.foldl climbBy (0, [])

/-- The place so many levels above a directory and then down. -/
def above (dir : List (List Char)) (x : Nat × List (List Char)) : List (List Char) :=
  dir.take (dir.length - x.1) ++ x.2

def Below {α : Type} (dir path : List α) : Prop := dir <+: path ∧ path ≠ dir

instance {α : Type} [DecidableEq α] (dir path : List α) : Decidable (Below dir path) :=
  inferInstanceAs (Decidable (_ ∧ _))

theorem not_below_self {α : Type} (dir : List α) : ¬ Below dir dir := fun h => h.2 rfl

variable (dir segs : List (List Char))

theorem walk_append (segs' : List (List Char)) :
    walk dir (segs ++ segs') = walk (walk dir segs) segs' :=
  foldl_append

theorem enter_above (x : Nat × List (List Char)) (seg : List Char) :
    enter (above dir x) seg = above dir (climbBy x seg) := by
  obtain ⟨up, down⟩ := x
  unfold enter climbBy
  split
  · rfl
  · split
    · split
      · next hdown =>
        change down = [] at hdown
        subst hdown
        simp only [above]
        rw [append_nil, append_nil, dropLast_eq_take, take_take, length_take]
        congr 1
        omega
      · next hdown => exact dropLast_append_of_ne_nil hdown
    · exact append_assoc ..

theorem walk_above (x : Nat × List (List Char)) :
    walk (above dir x) segs = above dir (segs.foldl climbBy x) := by
  induction segs generalizing x with
  | nil => rfl
  | cons seg segs ih =>
    show walk (enter (above dir x) seg) segs = _
    rw [enter_above]
    exact ih _

/-- Where a path leads from a directory. -/
theorem walk_eq : walk dir segs = above dir (climb segs) := by
  have h := walk_above dir segs (0, [])
  simp only [above, Nat.sub_zero, take_length, append_nil] at h
  exact h

theorem stripEnd_concat_nil : stripEnd (segs ++ [[]]) = stripEnd segs := by
  simp [stripEnd]

theorem stripEnd_removeDots : stripEnd (removeDots segs) = stripEnd (walk [] segs) := by
  unfold removeDots
  split
  · exact stripEnd_concat_nil _
  · rw [append_nil]

theorem stripEnd_removeDots_concat_nil :
    stripEnd (removeDots (segs ++ [[]])) = stripEnd (removeDots segs) := by
  rw [stripEnd_removeDots, stripEnd_removeDots, walk_append]
  exact stripEnd_concat_nil _

theorem stripEnd_split : ∃ n, segs = stripEnd segs ++ replicate n [] :=
  rdropWhile_split (by simp) segs

theorem stripEnd_append_replicate (n : Nat) :
    stripEnd (segs ++ replicate n []) = stripEnd segs :=
  rdropWhile_append_replicate (by simp) segs n

variable {dir segs}

theorem stripEnd_append {down : List (List Char)} (hne : down ≠ []) (hdown : ∀ s ∈ down, s ≠ []) :
    stripEnd (segs ++ down) = segs ++ down := by
  obtain ⟨init, s, rfl⟩ := down.eq_nil_or_concat.resolve_left hne
  have hs : s ≠ [] := hdown s (by simp)
  simp [stripEnd, hs]

theorem Below.of_prefix {α : Type} {dir dir' path : List α} (h : Below dir' path)
    (hpre : dir <+: dir') : Below dir path := by
  refine ⟨hpre.trans h.1, ?_⟩
  rintro rfl
  exact h.2 (hpre.eq_of_length_le h.1.length_le)

theorem below_append {α : Type} (a x y : List α) : Below (a ++ x) (a ++ y) ↔ Below x y := by
  simp [Below, prefix_append_right_inj]

theorem below_nil {α : Type} (y : List α) : Below [] y ↔ y ≠ [] := by
  simp [Below]

/-- Up from a directory and down again leads strictly below it exactly if the way down begins with
the names that were left, and goes on. -/
theorem below_above_iff {x : Nat × List (List Char)} (hdown : ∀ s ∈ x.2, s ≠ []) :
    Below (stripEnd dir) (stripEnd (above dir x)) ↔
      Below ((stripEnd dir).drop (dir.length - x.1)) x.2 := by
  obtain ⟨up, down⟩ := x
  obtain ⟨n, hn⟩ := stripEnd_split dir
  simp only [above] at hdown ⊢
  generalize dir.length - up = kept
  generalize stripEnd dir = r at hn ⊢
  subst hn
  -- the levels that are left of the directory, without the empty names at its end
  obtain ⟨m, hm⟩ : ∃ m, (r ++ replicate n ([] : List Char)).take kept =
      r.take kept ++ replicate m [] :=
    ⟨min (kept - r.length) n, by rw [take_append, take_replicate]⟩
  have hm0 : kept < r.length → m = 0 := fun hlt => by
    have := congrArg length hm
    simp only [length_take, length_append, length_replicate] at this
    omega
  rw [hm]
  by_cases hnil : down = []
  · subst hnil
    refine iff_of_false (fun h => h.2 (h.1.eq_of_length_le ?_).symm) fun h =>
      h.2 (prefix_nil.1 h.1).symm
    rw [append_nil, stripEnd_append_replicate]
    exact (( rdropWhile_prefix _ _).trans ( take_prefix kept r)).length_le
  · rw [stripEnd_append hnil hdown, append_assoc]
    nth_rewrite 1 [← take_append_drop kept r]
    rw [below_append]
    by_cases hlt : kept < r.length
    · rw [hm0 hlt, replicate_zero, nil_append]
    · rw [drop_eq_nil_of_le (not_lt.1 hlt), below_nil, below_nil]
      simp [hnil]

theorem mem_climb {s : List Char} (h : s ∈ (climb segs).2) : s ∈ segs := by
  have hfold : ∀ (l : List (List Char)) (x : Nat × List (List Char)), s ∈ (l.foldl climbBy x).2 →
      s ∈ x.2 ∨ s ∈ l := by
    intro l
    induction l with
    | nil => exact fun x h => .inl h
    | cons seg l ih =>
      intro x h
      rcases ih _ h with hx | hl
      · unfold climbBy at hx
        split at hx
        · exact .inl hx
        · split at hx
          · split at hx
            · cases hx
            · exact .inl (dropLast_sublist _ |>.subset hx)
          · rcases mem_append.1 hx with hx | hx
            · exact .inl hx
            · exact .inr (mem_singleton.1 hx ▸ mem_cons_self)
      · exact .inr (mem_cons_of_mem _ hl)
  exact (hfold segs (0, []) h).resolve_left not_mem_nil

section Map

variable {f : List Char → List Char}

/-- A spelling of the segments that keeps the dot segments, and no other segment becomes one. -/
structure KeepsDots (f : List Char → List Char) : Prop where
  dot : ∀ s, f s = ['.'] ↔ s = ['.']
  dots : ∀ s, f s = ['.', '.'] ↔ s = ['.', '.']
  nil : ∀ s, f s = [] ↔ s = []

theorem walk_map (hf : KeepsDots f) (dir segs : List (List Char)) :
    walk (dir.map f) (segs.map f) = (walk dir segs).map f := by
  induction segs generalizing dir with
  | nil => rfl
  | cons seg segs ih =>
    have hstep : enter (dir.map f) (f seg) = (enter dir seg).map f := by
      simp only [enter, hf.dot, hf.dots]
      split
      · rfl
      · split
        · exact map_dropLast.symm
        · rw [map_append, map_singleton]
    show walk (enter (dir.map f) (f seg)) (segs.map f) = _
    rw [hstep]
    exact ih _

theorem stripEnd_map (hf : KeepsDots f) (segs : List (List Char)) :
    stripEnd (segs.map f) = (stripEnd segs).map f := by
  have hdrop : ∀ l : List (List Char), (l.map f).dropWhile (· = []) =
      (l.dropWhile (· = [])).map f := by
    intro l
    induction l with
    | nil => rfl
    | cons s l ih =>
      simp only [map_cons, dropWhile_cons, hf.nil]
      split
      · exact ih
      · rfl
  rw [stripEnd, ← map_reverse, hdrop, ← map_reverse, stripEnd]

end Map

end Data
