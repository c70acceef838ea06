import Mathlib
/-!
# Readers

A `Source` delivers a list in portions: each read takes the next entry of its script, which bounds
the portion and says whether the end is reported together with the last one. A `Buffered` reader
reads from it: small reads go through the buffer, a read of `size` or more with an empty buffer goes
straight to the source (`Buffered.read_spec`).
-/

namespace Data

open List

variable {α : Type} {m : Nat}

structure Source (α : Type) where
  rest : List α
  script : List (Nat × Bool)

def Source.read (m : Nat) (s : Source α) : List α × Bool × Source α :=
  match s.rest with
  | [] => ([], true, s)
  | _ :: _ =>
    let (k, eager) := s.script.head?.getD (m, false)
    let n := max 1 (min k m)
    (s.rest.take n, eager && (s.rest.drop n).isEmpty, ⟨s.rest.drop n, s.script.tail⟩)

theorem Source.read_nil {s : Source α} (h : s.rest = []) : s.read m = ([], true, s) := by
  rw [Source.read, h]

theorem Source.read_spec (hm : 0 < m) {s s' : Source α} {out : List α} {eof : Bool} (h : s.read m = (out, eof, s')) :
    s.rest = out ++ s'.rest ∧ out.length ≤ m ∧ (out = [] → s.rest = [] ∧ eof = true) ∧ (eof = true → s'.rest = []) := by
  cases hr : s.rest with
  | nil =>
    rw [Source.read_nil hr] at h
    cases h
    simp [hr]
  | cons a l =>
    rw [Source.read, hr] at h
    simp only [Prod.mk.injEq] at h
    obtain ⟨rfl, rfl, rfl⟩ := h
    refine ⟨(take_append_drop _ _).symm, ?_, ?_, ?_⟩
    · rw [length_take]
      omega
    · intro hnil
      have hlen := congrArg List.length hnil
      simp only [length_take, length_cons, length_nil] at hlen
      omega
    · intro heof
      rw [Bool.and_eq_true, List.isEmpty_iff] at heof
      exact heof.2

structure Buffered (α : Type) where
  buf : List α
  /-- The end has been reported and not yet passed on. -/
  eof : Bool
  src : Source α

namespace Buffered

variable {size m : Nat}

def pending (b : Buffered α) : List α := b.buf ++ b.src.rest

/-- The end is reported only when it is reached. -/
def Ok (b : Buffered α) : Prop := b.eof = true → b.src.rest = []

def read (size m : Nat) (b : Buffered α) : List α × Bool × Buffered α :=
  match b.buf with
  | _ :: _ => (b.buf.take m, false, { b with buf := b.buf.drop m })
  | [] =>
    if b.eof then ([], true, { b with eof := false })
    else if size ≤ m then
      let (out, eof, src) := b.src.read m
      (out, eof, ⟨[], false, src⟩)
    else
      let (out, eof, src) := b.src.read size
      if out.isEmpty then ([], eof, ⟨[], false, src⟩) else (out.take m, false, ⟨out.drop m, eof, src⟩)

def readByte (size : Nat) (b : Buffered α) : Option α × Buffered α :=
  match b.buf with
  | a :: l => (some a, { b with buf := l })
  | [] =>
    if b.eof then (none, { b with eof := false })
    else
      match b.src.read size with
      | ([], _, src) => (none, ⟨[], false, src⟩)
      | (a :: l, eof, src) => (some a, ⟨l, eof, src⟩)

/-- `io.ReadFull` of `n`: reads until there are enough. -/
def readFull (size : Nat) : Nat → Nat → Buffered α → Option (List α) × Buffered α
  | _, 0, b => (some [], b)
  | 0, _ + 1, b => (none, b)
  | fuel + 1, n + 1, b =>
    match b.read size (n + 1) with
    | ([], _, b') => (none, b')
    | (out, _, b') =>
      match readFull size fuel (n + 1 - out.length) b' with
      | (some l, b'') => (some (out ++ l), b'')
      | (none, b'') => (none, b'')

/-- What a read returns. The end comes together with something only from a read past the buffer. -/
structure Reads (size m : Nat) (b : Buffered α) (out : List α) (eof : Bool) (b' : Buffered α) : Prop where
  ok : b'.Ok
  split : b.pending = out ++ b'.pending
  length : out.length ≤ m
  none : out = [] → b.pending = [] ∧ eof = true
  early : eof = true → out ≠ [] → size ≤ m ∧ b'.pending = []

theorem read_spec (hs : 0 < size) (hm : 0 < m) {b b' : Buffered α} {out : List α} {eof : Bool} (hb : b.Ok)
    (h : b.read size m = (out, eof, b')) : Reads size m b out eof b' := by
  unfold read at h
  split at h
  · next a l hbuf =>
    simp only [Prod.mk.injEq] at h
    obtain ⟨rfl, rfl, rfl⟩ := h
    refine ⟨hb, ?_, by rw [length_take]; omega, ?_, by simp⟩
    · rw [pending, pending, ← append_assoc, take_append_drop]
    · intro hnil
      have hlen := congrArg List.length hnil
      simp only [hbuf, length_take, length_cons, length_nil] at hlen
      omega
  · next hbuf =>
    split at h
    · next heof =>
      simp only [Prod.mk.injEq] at h
      obtain ⟨rfl, rfl, rfl⟩ := h
      have hrest := hb heof
      refine ⟨fun hf => by simp at hf, rfl, by simp, fun _ => ⟨?_, rfl⟩, by simp⟩
      rw [pending, hbuf, hrest]
      rfl
    · split at h
      · next hle =>
        obtain ⟨o, e, src, hsrc⟩ : ∃ o e src, b.src.read m = (o, e, src) := ⟨_, _, _, rfl⟩
        rw [hsrc] at h
        simp only [Prod.mk.injEq] at h
        obtain ⟨rfl, rfl, rfl⟩ := h
        obtain ⟨hsplit, hlen, hnil, hend⟩ := Source.read_spec hm hsrc
        refine ⟨fun hf => by simp at hf, ?_, hlen, ?_, fun he _ => ⟨hle, ?_⟩⟩
        · rw [pending, pending, hbuf, hsplit]
          rfl
        · intro ho
          rw [pending, hbuf, (hnil ho).1]
          exact ⟨rfl, (hnil ho).2⟩
        · rw [pending, hend he]
          rfl
      · obtain ⟨o, e, src, hsrc⟩ : ∃ o e src, b.src.read size = (o, e, src) := ⟨_, _, _, rfl⟩
        obtain ⟨hsplit, hlen, hnil, hend⟩ := Source.read_spec hs hsrc
        rw [hsrc] at h
        dsimp only at h
        split at h
        · next ho =>
          simp only [Prod.mk.injEq] at h
          obtain ⟨rfl, rfl, rfl⟩ := h
          obtain ⟨hrest, rfl⟩ := hnil (List.isEmpty_iff.1 ho)
          refine ⟨fun hf => by simp at hf, ?_, by simp, fun _ => ⟨?_, rfl⟩, by simp⟩
          · rw [pending, pending, hbuf, hsplit, List.isEmpty_iff.1 ho, nil_append, nil_append]
          · rw [pending, hbuf, hrest]
            rfl
        · next ho =>
          simp only [Prod.mk.injEq] at h
          obtain ⟨rfl, rfl, rfl⟩ := h
          refine ⟨hend, ?_, by rw [length_take]; omega, ?_, by simp⟩
          · rw [pending, pending, hbuf, hsplit, nil_append, ← append_assoc, take_append_drop]
          · intro htake
            have hlen' := congrArg List.length htake
            have hpos : 0 < o.length := length_pos_iff.2 fun hn => ho (by simp [hn])
            simp only [length_take, length_nil] at hlen'
            omega

/-- The first of what is to come, or none because nothing is. -/
def Popped (b : Buffered α) : Option α → Buffered α → Prop
  | some a, b' => b.pending = a :: b'.pending
  | none, _ => b.pending = []

theorem readByte_spec (hs : 0 < size) {b b' : Buffered α} {r : Option α} (hb : b.Ok) (h : b.readByte size = (r, b')) :
    b'.Ok ∧ b.Popped r b' := by
  unfold readByte at h
  split at h
  · next a l hbuf =>
    cases h
    exact ⟨hb, by rw [Popped, pending, hbuf]; rfl⟩
  · next hbuf =>
    split at h
    · next heof =>
      cases h
      exact ⟨fun hf => by simp at hf, by rw [Popped, pending, hbuf, hb heof]; rfl⟩
    · obtain ⟨o, e, src, hsrc⟩ : ∃ o e src, b.src.read size = (o, e, src) := ⟨_, _, _, rfl⟩
      obtain ⟨hsplit, -, hnil, hend⟩ := Source.read_spec hs hsrc
      rw [hsrc] at h
      cases o with
      | nil =>
        cases h
        exact ⟨fun hf => by simp at hf, by rw [Popped, pending, hbuf, (hnil rfl).1]; rfl⟩
      | cons a l =>
        cases h
        exact ⟨hend, by rw [Popped, pending, hbuf, hsplit]; rfl⟩

/-- The first `n` of what is to come, or none because there are fewer. -/
def Filled (n : Nat) (b : Buffered α) : Option (List α) → Buffered α → Prop
  | some l, b' => l.length = n ∧ b.pending = l ++ b'.pending
  | none, _ => b.pending.length < n

theorem readFull_spec (hs : 0 < size) {fuel n : Nat} (hn : n ≤ fuel) {b b' : Buffered α} {r : Option (List α)} (hb : b.Ok)
    (h : b.readFull size fuel n = (r, b')) : b'.Ok ∧ b.Filled n r b' := by
  induction fuel generalizing n b b' r with
  | zero =>
    obtain rfl : n = 0 := by omega
    cases h
    exact ⟨hb, rfl, rfl⟩
  | succ fuel ih =>
    cases n with
    | zero =>
      cases h
      exact ⟨hb, rfl, rfl⟩
    | succ n =>
      rw [readFull] at h
      obtain ⟨out, eof, b₁, hread⟩ : ∃ out eof b₁, b.read size (n + 1) = (out, eof, b₁) := ⟨_, _, _, rfl⟩
      have hspec := read_spec hs (Nat.succ_pos n) hb hread
      rw [hread] at h
      cases out with
      | nil =>
        cases h
        exact ⟨hspec.ok, by rw [Filled, (hspec.none rfl).1]; simp⟩
      | cons a l =>
        dsimp only at h
        obtain ⟨r', b₂, hrest⟩ : ∃ r' b₂, b₁.readFull size fuel (n + 1 - (a :: l).length) = (r', b₂) := ⟨_, _, rfl⟩
        have hle : n + 1 - (a :: l).length ≤ fuel := by
          rw [length_cons]
          omega
        obtain ⟨hok, hr'⟩ := ih hle hspec.ok hrest
        have hlen := hspec.length
        rw [hrest] at h
        cases r' with
        | none =>
          cases h
          refine ⟨hok, ?_⟩
          rw [Filled] at hr' ⊢
          rw [hspec.split, length_append]
          omega
        | some l' =>
          cases h
          refine ⟨hok, ?_, ?_⟩
          · rw [length_append, hr'.1]
            omega
          · rw [hspec.split, hr'.2, append_assoc]

/-! ## One at a time

A source that delivers `pre` one by one and then `part` at once, together with the end. -/

def slow (pre part : List α) : Buffered α :=
  ⟨[], false, ⟨pre ++ part, List.replicate pre.length (1, false) ++ [(part.length, true)]⟩⟩

theorem slow_src (hm : 0 < m) (a : α) (pre part : List α) : (slow (a :: pre) part).src.read m = ([a], false, (slow pre part).src) := by
  have h : min 1 m = 1 := by omega
  simp [slow, Source.read, replicate_succ, h]

theorem slow_readByte (hs : 0 < size) (a : α) (pre part : List α) : (slow (a :: pre) part).readByte size = (some a, slow pre part) := by
  have h : (slow (a :: pre) part).readByte size =
      match (slow (a :: pre) part).src.read size with
      | ([], _, src) => (none, ⟨[], false, src⟩)
      | (a :: l, eof, src) => (some a, ⟨l, eof, src⟩) := rfl
  rw [h, slow_src hs]
  rfl

theorem slow_read (hs : 0 < size) (hm : 0 < m) (a : α) (pre part : List α) :
    (slow (a :: pre) part).read size m = ([a], false, slow pre part) := by
  have h : (slow (a :: pre) part).read size m =
      if size ≤ m then
        let (out, eof, src) := (slow (a :: pre) part).src.read m
        (out, eof, ⟨[], false, src⟩)
      else
        let (out, eof, src) := (slow (a :: pre) part).src.read size
        if out.isEmpty then ([], eof, ⟨[], false, src⟩) else (out.take m, false, ⟨out.drop m, eof, src⟩) := rfl
  obtain ⟨k, rfl⟩ : ∃ k, m = k + 1 := ⟨m - 1, by omega⟩
  rw [h, slow_src hs, slow_src hm]
  simp [slow]

theorem slow_readFull_two (hs : 0 < size) (a b : α) (pre part : List α) :
    (slow (a :: b :: pre) part).readFull size 2 2 = (some [a, b], slow pre part) := by
  simp [readFull, slow_read hs]

theorem slow_end {part : List α} (hne : part ≠ []) (hs : size ≤ m) (hlen : part.length ≤ m) :
    ((slow [] part).read size m).1 = part ∧ ((slow [] part).read size m).2.1 = true := by
  obtain ⟨a, l, rfl⟩ := exists_cons_of_ne_nil hne
  have hn : max 1 (min (l.length + 1) m) = l.length + 1 := by
    rw [length_cons] at hlen
    omega
  simp [read, slow, hs, Source.read, hn]

end Buffered
end Data
