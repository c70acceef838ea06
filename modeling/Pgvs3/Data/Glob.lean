import Mathlib
/-!
# Glob patterns

The matcher of Go's `path` package, over bytes. The characters before the first special one have to
be what a name begins with (`literal_isPrefix`).
-/

namespace Data.Glob

open List

abbrev Bytes := List UInt8

/-- The code point at the front and its width; `U+FFFD` of width 1 where there is none. -/
def decodeRune : Bytes → Nat × Nat
  | [] => (0xfffd, 0)
  | b0 :: rest =>
    let cont (lo hi : Nat) (b : UInt8) : Bool := lo ≤ b.toNat && b.toNat ≤ hi
    let n := b0.toNat
    if n < 0x80 then (n, 1)
    else if 0xc2 ≤ n ∧ n ≤ 0xdf then
      match rest with
      | b1 :: _ => if cont 0x80 0xbf b1 then ((n % 32) * 64 + b1.toNat % 64, 2) else (0xfffd, 1)
      | _ => (0xfffd, 1)
    else if 0xe0 ≤ n ∧ n ≤ 0xef then
      match rest with
      | b1 :: b2 :: _ =>
        if cont (if n = 0xe0 then 0xa0 else 0x80) (if n = 0xed then 0x9f else 0xbf) b1 && cont 0x80 0xbf b2 then
          ((n % 16) * 4096 + (b1.toNat % 64) * 64 + b2.toNat % 64, 3)
        else (0xfffd, 1)
      | _ => (0xfffd, 1)
    else if 0xf0 ≤ n ∧ n ≤ 0xf4 then
      match rest with
      | b1 :: b2 :: b3 :: _ =>
        if cont (if n = 0xf0 then 0x90 else 0x80) (if n = 0xf4 then 0x8f else 0xbf) b1 && cont 0x80 0xbf b2 && cont 0x80 0xbf b3 then
          ((n % 8) * 262144 + (b1.toNat % 64) * 4096 + (b2.toNat % 64) * 64 + b3.toNat % 64, 4)
        else (0xfffd, 1)
      | _ => (0xfffd, 1)
    else (0xfffd, 1)

def star : UInt8 := 42
def slash : UInt8 := 47
def question : UInt8 := 63
def opening : UInt8 := 91
def backslash : UInt8 := 92
def closing : UInt8 := 93
def caret : UInt8 := 94
def hyphen : UInt8 := 45

/-- The bytes up to a star outside of a class; one that a backslash quotes is skipped. -/
def scanBody : Bool → Bool → Bytes → Bytes × Bytes
  | _, _, [] => ([], [])
  | true, inRange, c :: p => (c :: (scanBody false inRange p).1, (scanBody false inRange p).2)
  | false, inRange, c :: p =>
    if c = star ∧ inRange = false then ([], c :: p)
    else
      let next := scanBody (c = backslash) (if c = opening then true else if c = closing then false else inRange) p
      (c :: next.1, next.2)

/-- The next chunk, whether stars stand before it, and the rest of the pattern. -/
def scanChunk (pattern : Bytes) : Bool × Bytes × Bytes :=
  let body := pattern.dropWhile (· = star)
  (pattern.head? = some star, scanBody false false body)

/-- A character of a class and what follows it; `none` is a bad pattern. -/
def getEsc (chunk : Bytes) : Option (Nat × Bytes) :=
  let unquoted : Option Bytes := match chunk with
    | [] => none
    | c :: rest =>
      if c = hyphen ∨ c = closing then none
      else if c = backslash then (if rest = [] then none else some rest)
      else some chunk
  unquoted.bind fun chunk =>
    let (r, n) := decodeRune chunk
    if (r = 0xfffd ∧ n = 1) ∨ chunk.drop n = [] then none else some (r, chunk.drop n)

/-- The ranges of a class: whether `r` is in one, and what follows the class. -/
def ranges (r : Nat) : Nat → Bytes → Nat → Bool → Option (Bool × Bytes)
  | 0, _, _, _ => none
  | fuel + 1, chunk, count, found =>
    if chunk.head? = some closing ∧ 0 < count then some (found, chunk.tail)
    else
      (getEsc chunk).bind fun (lo, chunk) =>
        if chunk.head? = some hyphen then
          (getEsc chunk.tail).bind fun (hi, chunk) => ranges r fuel chunk (count + 1) (found || (lo ≤ r && r ≤ hi))
        else ranges r fuel chunk (count + 1) (found || (lo ≤ r && r ≤ lo))

inductive Outcome where
  /-- What is left of the name. -/
  | rest (s : Bytes)
  | failed
  | badPattern
deriving DecidableEq, Repr

/-- Match a chunk with the front of a name; after a mismatch the chunk is only read to its end. -/
def matchChunk : Nat → Bytes → Bytes → Bool → Outcome
  | 0, _, _, _ => .badPattern
  | _ + 1, [], s, failed => if failed then .failed else .rest s
  | fuel + 1, c :: chunk, s, failed =>
    let failed := failed || s.isEmpty
    if c = opening then
      let (r, n) := if failed then (0, 0) else decodeRune s
      let negated := chunk.head? == some caret
      match ranges r (chunk.length + 1) (if negated then chunk.tail else chunk) 0 false with
      | none => .badPattern
      | some (found, chunk) => matchChunk fuel chunk (s.drop n) (failed || found == negated)
    else if c = question then
      if failed then matchChunk fuel chunk s true
      else matchChunk fuel chunk (s.drop (decodeRune s).2) (s.head? == some slash)
    else if c = backslash then
      match chunk with
      | [] => .badPattern
      | d :: chunk => if failed then matchChunk fuel chunk s true else matchChunk fuel chunk s.tail (s.head? != some d)
    else if failed then matchChunk fuel chunk s true
    else matchChunk fuel chunk s.tail (s.head? != some c)

def chunkAt (chunk s : Bytes) : Outcome := matchChunk (chunk.length + 1) chunk s false

/-- The first place behind the start, not beyond a slash, where the chunk matches; the last chunk
has to reach the end. -/
def skip (chunk : Bytes) (last : Bool) : Bytes → Option Bytes
  | [] => none
  | c :: name =>
    if c = slash then none
    else
      match chunkAt chunk name with
      | .rest t => if last && !t.isEmpty then skip chunk last name else some t
      | .failed => skip chunk last name
      | .badPattern => none

def matchLoop : Nat → Bytes → Bytes → Bool
  | 0, _, _ => false
  | _ + 1, [], name => name.isEmpty
  | fuel + 1, pattern, name =>
    let (stars, chunk, rest) := scanChunk pattern
    if stars && chunk.isEmpty then !(name.contains slash)
    else
      let retry : Bool := stars && match skip chunk rest.isEmpty name with
        | some t => matchLoop fuel rest t
        | none => false
      match chunkAt chunk name with
      | .rest t => if t.isEmpty || !rest.isEmpty then matchLoop fuel rest t else retry
      | .failed => retry
      | .badPattern => false

/-- `path.Match`; a bad pattern matches nothing. -/
def pathMatch (pattern name : Bytes) : Bool := matchLoop (pattern.length + 1) pattern name

/-- The bytes that do not stand for themselves. -/
def special (b : UInt8) : Bool := b = star || b = question || b = opening || b = backslash

theorem matchChunk_failed (fuel : Nat) (chunk s t : Bytes) : matchChunk fuel chunk s true ≠ .rest t := by
  induction fuel generalizing chunk s with
  | zero => exact nofun
  | succ fuel ih =>
    cases chunk with
    | nil => exact nofun
    | cons c chunk =>
      simp only [matchChunk, Bool.true_or, if_true]
      split
      · split
        · exact nofun
        · exact ih _ _
      · split
        · exact ih _ _
        · split
          · split
            · exact nofun
            · exact ih _ _
          · exact ih _ _

theorem matchChunk_literal {lit : Bytes} (hlit : ∀ b ∈ lit, special b = false) :
    ∀ {fuel : Nat} {chunk s t : Bytes}, matchChunk fuel (lit ++ chunk) s false = .rest t → lit <+: s := by
  induction lit with
  | nil => exact fun _ => List.nil_prefix
  | cons b lit ih =>
    intro fuel chunk s t h
    have hb := hlit b mem_cons_self
    simp only [special, Bool.or_eq_false_iff, decide_eq_false_iff_not] at hb
    obtain ⟨⟨⟨-, hq⟩, ho⟩, hbs⟩ := hb
    cases fuel with
    | zero => cases h
    | succ fuel =>
      simp only [cons_append, matchChunk, Bool.false_or, if_neg ho, if_neg hq, if_neg hbs] at h
      cases s with
      | nil => exact absurd h (matchChunk_failed _ _ _ _)
      | cons d s =>
        simp only [isEmpty_cons, Bool.false_eq_true, if_false, tail_cons, head?_cons] at h
        by_cases hd : d = b
        · subst hd
          rw [bne_self_eq_false] at h
          exact cons_prefix_cons.2 ⟨rfl, ih (fun x hx => hlit x (mem_cons_of_mem _ hx)) h⟩
        · rw [show (some d != some b) = true from by simp [hd]] at h
          exact absurd h (matchChunk_failed _ _ _ _)

theorem scanBody_literal {lit : Bytes} (hlit : ∀ b ∈ lit, special b = false) (inRange : Bool) (p : Bytes) :
    ∃ chunk, (scanBody false inRange (lit ++ p)).1 = lit ++ chunk := by
  induction lit generalizing inRange with
  | nil => exact ⟨_, rfl⟩
  | cons b lit ih =>
    have hb := hlit b mem_cons_self
    simp only [special, Bool.or_eq_false_iff, decide_eq_false_iff_not] at hb
    obtain ⟨⟨⟨hs, -⟩, -⟩, hbs⟩ := hb
    obtain ⟨chunk, hchunk⟩ := ih (fun x hx => hlit x (mem_cons_of_mem _ hx))
      (if b = opening then true else if b = closing then false else inRange)
    refine ⟨chunk, ?_⟩
    rw [cons_append, scanBody, if_neg (fun hc => hs hc.1), show decide (b = backslash) = false from decide_eq_false hbs]
    exact congrArg (b :: ·) hchunk

/-- A name that a pattern matches begins with the plain bytes in front of the pattern. -/
theorem literal_isPrefix {lit p name : Bytes} (hlit : ∀ b ∈ lit, special b = false) (h : pathMatch (lit ++ p) name = true) :
    lit <+: name := by
  cases lit with
  | nil => exact List.nil_prefix
  | cons b lit =>
    have hb : b ≠ star := by
      rintro rfl
      exact absurd (hlit star mem_cons_self) (by decide)
    have hscan : scanChunk (b :: lit ++ p) = (false, scanBody false false (b :: lit ++ p)) := by
      simp [scanChunk, hb]
    obtain ⟨chunk, hchunk⟩ := scanBody_literal hlit false p
    rw [pathMatch, length_append, length_cons] at h
    simp only [matchLoop, cons_append] at h
    rw [← cons_append, hscan] at h
    simp only [hchunk, Bool.false_and, Bool.false_eq_true, if_false] at h
    split at h
    · next t ht => exact matchChunk_literal hlit ht
    · cases h
    · cases h

end Data.Glob
