import Pgvs3.Data.Bytes
import Pgvs3.Data.Reader
import Pgvs3.Data.Text
/-!
# Bodies in aws-chunked framing

`Data.Buffered` is the `bufio.Reader` of 64 KiB below.

The grammar of the stream is `Frames`: chunks with a header line, their bytes and CRLF, then a
header line for zero and the trailer section, with the limits on lines, chunks and trailers.

One turn of the loop follows the grammar (`turn_follows`), with one exception: a read of 64 KiB or
more that gets bytes together with the end of the stream keeps `io.EOF` as the error of the body.
`Cut` says of which streams this can happen.
-/

namespace Pgvs3.Ingest

open Data (Buffered trimSpace)
open List

def bufioSize : Nat := 64 * 1024
def maxChunkHeader : Nat := 128
def maxChunkSize : Nat := 8 * 2 ^ 20
def maxTrailerBytes : Nat := 64 * 2 ^ 10
def maxTrailerLine : Nat := 8 * 2 ^ 10

inductive BodyError where
  /-- `io.EOF`. -/
  | eof
  /-- `IncompleteBody`. -/
  | incomplete
  /-- `invalid aws-chunked delimiter`. -/
  | delimiter
  /-- `aws-chunked body exceeds x-amz-decoded-content-length`. -/
  | exceeds
  /-- `aws-chunked body length does not match x-amz-decoded-content-length`. -/
  | mismatch
  /-- `aws-chunked header line too long`. -/
  | lineTooLong
  /-- `invalid aws-chunked chunk size`. -/
  | chunkSize
  /-- `invalid aws-chunked chunk header`. -/
  | chunkHeader
  /-- `aws-chunked chunk exceeds 8 MiB`. -/
  | chunkTooLarge
  /-- `aws-chunked trailers exceed 64 KiB`. -/
  | trailersTooLong
  /-- `invalid aws-chunked trailer`. -/
  | trailer
deriving DecidableEq, Repr

/-! ## Lines -/

/-- `strings.EqualFold`; U+017F folds to an s and U+212A to a k. -/
def equalFold : List Char → Bytes → Bool
  | [], s => s.isEmpty
  | c :: cs, s =>
    match s with
    | [] => false
    | b :: bs =>
      if b.toNat = c.toNat ∨ b.toNat = c.toUpper.toNat then equalFold cs bs
      else if c = 's' ∧ [0xc5, 0xbf].isPrefixOf s then equalFold cs (s.drop 2)
      else if c = 'k' ∧ [0xe2, 0x84, 0xaa].isPrefixOf s then equalFold cs (s.drop 3)
      else false

def hexDigit (b : UInt8) : Option Nat :=
  if 48 ≤ b ∧ b ≤ 57 then some (b.toNat - 48)
  else if 97 ≤ b ∧ b ≤ 102 then some (b.toNat - 87)
  else if 65 ≤ b ∧ b ≤ 70 then some (b.toNat - 55)
  else none

/-- `request.go:954-965`. -/
def isHex (s : Bytes) : Bool := !s.isEmpty && s.all fun b => (hexDigit b).isSome

def hexValue (s : Bytes) : Nat := s.foldl (fun n b => n * 16 + (hexDigit b).getD 0) 0

/-- `request.go:907-928`. -/
def parseChunkHeader (line : Bytes) : Except BodyError Nat :=
  let (sizePart, params) := (Data.cut 59 line).getD (line, [])
  let sizePart := trimSpace sizePart
  if sizePart = [] ∨ 16 < sizePart.length ∨ !isHex sizePart then .error .chunkSize
  else if params ≠ [] ∧ !((Data.cut 61 params).any fun p =>
      equalFold "chunk-signature".toList (trimSpace p.1) && (trimSpace p.2).length == 64 && isHex (trimSpace p.2)) then
    .error .chunkHeader
  else if 2 ^ 63 ≤ hexValue sizePart then .error .chunkSize
  else if maxChunkSize < hexValue sizePart then .error .chunkTooLarge
  else .ok (hexValue sizePart)

def chomp (raw : Bytes) : Bytes := if raw.getLast? = some 13 then raw.dropLast else raw

/-- `room` more bytes may come before the end of the line (`request.go:887-905`). -/
def readChunkLine : Nat → Bytes → Buffered UInt8 → Except BodyError Bytes × Buffered UInt8
  | room, raw, r =>
    match r.readByte bufioSize with
    | (none, r') => (.error .eof, r')
    | (some c, r') =>
      if c = 10 then (.ok (chomp raw), r')
      else
        match room with
        | 0 => (.error .lineTooLong, r')
        | room + 1 => readChunkLine room (raw ++ [c]) r'

def trailerLine (line : Bytes) : Option (Bytes × Bytes) :=
  (Data.cut 58 line).bind fun p => if trimSpace p.1 = [] then none else some (trimSpace p.1, trimSpace p.2)

/-- `budget` bytes of trailers may still come (`request.go:930-952`). -/
def readTrailers : Nat → Nat → List (Bytes × Bytes) → Buffered UInt8 → Except BodyError Unit × List (Bytes × Bytes) × Buffered UInt8
  | 0, _, trailer, r => (.error .trailersTooLong, trailer, r)
  | fuel + 1, budget, trailer, r =>
    match readChunkLine maxTrailerLine [] r with
    | (.error e, r') => (.error e, trailer, r')
    | (.ok line, r') =>
      if line = [] then (.ok (), trailer, r')
      else if budget < line.length + 2 then (.error .trailersTooLong, trailer, r')
      else
        match trailerLine line with
        | none => (.error .trailer, trailer, r')
        | some kv => readTrailers fuel (budget - (line.length + 2)) (trailer ++ [kv]) r'

/-! ## The body -/

/-- `request.go:793-802`. -/
structure ChunkedBody where
  r : Buffered UInt8
  trailer : List (Bytes × Bytes)
  decodedLen : Option Nat
  total : Nat
  remaining : Nat
  needCRLF : Bool
  done : Bool
  err : Option BodyError

def ChunkedBody.start (decodedLen : Option Nat) (src : Data.Source UInt8) : ChunkedBody :=
  ⟨⟨[], false, src⟩, [], decodedLen, 0, 0, false, false, none⟩

inductive Turn where
  | ret (out : Bytes) (err : Option BodyError) (c : ChunkedBody)
  | again (c : ChunkedBody)

/-- The end of the stream is not the end of the body (`request.go:875-885`). -/
def ChunkedBody.fail (c : ChunkedBody) (e : BodyError) : Turn :=
  let e := if e = .eof then .incomplete else e
  .ret [] (some e) { c with err := some e }

/-- Bytes of a chunk. An error that comes with them is kept as it is. -/
def turnPayload (m : Nat) (c : ChunkedBody) : Turn :=
  match c.r.read bufioSize (min m c.remaining) with
  | ([], eof, r) => if eof then { c with r }.fail .eof else .again { c with r }
  | (out, eof, r) =>
    .ret out none { c with
        r
        remaining := c.remaining - out.length
        total := c.total + out.length
        needCRLF := c.needCRLF || c.remaining - out.length == 0
        err := if eof then some .eof else none }

def turnCRLF (c : ChunkedBody) : Turn :=
  match c.r.readFull bufioSize 2 2 with
  | (none, r) => { c with r }.fail .eof
  | (some crlf, r) => if crlf = [13, 10] then .again { c with r, needCRLF := false } else { c with r }.fail .delimiter

def turnDone (c : ChunkedBody) : Turn :=
  if c.decodedLen.any (· ≠ c.total) then c.fail .mismatch else .ret [] (some .eof) c

def turnHeader (c : ChunkedBody) : Turn :=
  match readChunkLine maxChunkHeader [] c.r with
  | (.error e, r) => { c with r }.fail e
  | (.ok line, r) =>
    match parseChunkHeader line with
    | .error e => { c with r }.fail e
    | .ok 0 =>
      match readTrailers (maxTrailerBytes + 1) maxTrailerBytes c.trailer r with
      | (.error e, trailer, r) => { c with r, trailer, done := true }.fail e
      | (.ok (), trailer, r) => .again { c with r, trailer, done := true }
    | .ok (n + 1) =>
      if c.decodedLen.any (· < c.total + (n + 1)) then { c with r }.fail .exceeds
      else .again { c with r, remaining := n + 1 }

def turn (m : Nat) (c : ChunkedBody) : Turn :=
  match c.err with
  | some e => .ret [] (some e) c
  | none =>
    if 0 < c.remaining then turnPayload m c
    else if c.needCRLF then turnCRLF c
    else if c.done then turnDone c
    else turnHeader c

def turns (m : Nat) : Nat → ChunkedBody → Bytes × Option BodyError × ChunkedBody
  | 0, c => ([], none, c)
  | fuel + 1, c =>
    match turn m c with
    | .ret out err c' => (out, err, c')
    | .again c' => turns m fuel c'

/-- `Read` of a buffer of `m` bytes; no read takes more than three turns (`turns_stable`)
(`request.go:804-871`). -/
def ChunkedBody.read (m : Nat) (c : ChunkedBody) : Bytes × Option BodyError × ChunkedBody :=
  if m = 0 then ([], none, c) else turns m 4 c

/-- A caller reads until there is an error. -/
def drain : Nat → (Nat → Nat) → ChunkedBody → Option (Bytes × BodyError)
  | 0, _, _ => none
  | fuel + 1, sizes, c =>
    match c.read (sizes 0) with
    | (out, some e, _) => some (out, e)
    | (out, none, c') => (drain fuel (fun i => sizes (i + 1)) c').map fun p => (out ++ p.1, p.2)

/-! ## The grammar -/

def Line (max : Nat) (bs line : Bytes) : Prop :=
  ∃ raw, bs = raw ++ [10] ∧ (10 : UInt8) ∉ raw ∧ raw.length ≤ max ∧ line = chomp raw

/-- The trailer section, with so many bytes of trailers at most. -/
inductive Trailers : Nat → Bytes → Prop
  | stop {budget : Nat} {bs : Bytes} (h : Line maxTrailerLine bs []) : Trailers budget bs
  | line {budget : Nat} {bs line rest : Bytes} (h : Line maxTrailerLine bs line) (hne : line ≠ [])
      (hb : line.length + 2 ≤ budget) (ht : trailerLine line ≠ none) (hr : Trailers (budget - (line.length + 2)) rest) :
      Trailers budget (bs ++ rest)

/-- A stream with its payload and what comes after the trailer section. -/
inductive Frames : Bytes → Bytes → Bytes → Prop
  | last {head line tr after : Bytes} (h : Line maxChunkHeader head line) (hz : parseChunkHeader line = .ok 0)
      (ht : Trailers maxTrailerBytes tr) : Frames (head ++ (tr ++ after)) [] after
  | chunk {head line body rest payload after : Bytes} (h : Line maxChunkHeader head line)
      (hs : parseChunkHeader line = .ok body.length) (hb : body ≠ []) (hr : Frames rest payload after) :
      Frames (head ++ (body ++ 13 :: 10 :: rest)) (body ++ payload) after

def WellFormed (declared : Option Nat) (s payload : Bytes) : Prop :=
  Frames s payload [] ∧ ∀ n, declared = some n → payload.length = n

/-- The stream ends within a chunk of at least the buffer's size, or right after its bytes. -/
inductive Cut (declared : Option Nat) : Nat → Bytes → Prop
  | here {total n : Nat} {head line part : Bytes} (h : Line maxChunkHeader head line) (hs : parseChunkHeader line = .ok n)
      (hd : ∀ d, declared = some d → total + n ≤ d) (hn : bufioSize ≤ n) (hp : part ≠ []) (hl : part.length ≤ n) :
      Cut declared total (head ++ part)
  | chunk {total : Nat} {head line body rest : Bytes} (h : Line maxChunkHeader head line)
      (hs : parseChunkHeader line = .ok body.length) (hb : body ≠ [])
      (hd : ∀ d, declared = some d → total + body.length ≤ d) (hr : Cut declared (total + body.length) rest) :
      Cut declared total (head ++ (body ++ 13 :: 10 :: rest))

/-! ## Lines of a stream -/

section Lines

variable {r r' : Buffered UInt8} {s rest line bs : Bytes}

theorem bufioSize_pos : 0 < bufioSize := by decide

/-- `readChunkLine` of what is to come. -/
def takeLine : Nat → Bytes → Bytes → Except BodyError (Bytes × Bytes)
  | _, _, [] => .error .eof
  | room, raw, c :: s =>
    if c = 10 then .ok (chomp raw, s)
    else
      match room with
      | 0 => .error .lineTooLong
      | room + 1 => takeLine room (raw ++ [c]) s

theorem takeLine_cons (room : Nat) (raw : Bytes) (c : UInt8) (s : Bytes) : takeLine room raw (c :: s) =
    if c = 10 then .ok (chomp raw, s)
    else
      match room with
      | 0 => .error .lineTooLong
      | room + 1 => takeLine room (raw ++ [c]) s := by
  cases room <;> rfl

theorem readChunkLine_eq (room : Nat) (raw : Bytes) (r : Buffered UInt8) : readChunkLine room raw r =
    match r.readByte bufioSize with
    | (none, r') => (.error .eof, r')
    | (some c, r') =>
      if c = 10 then (.ok (chomp raw), r')
      else
        match room with
        | 0 => (.error .lineTooLong, r')
        | room + 1 => readChunkLine room (raw ++ [c]) r' := by
  cases room <;> rw [readChunkLine]

theorem readChunkLine_spec (room : Nat) {raw : Bytes} {r : Buffered UInt8} {res : Except BodyError Bytes} (hr : r.Ok)
    (h : readChunkLine room raw r = (res, r')) :
    r'.Ok ∧ takeLine room raw r.pending = res.map fun line => (line, r'.pending) := by
  rw [readChunkLine_eq] at h
  obtain ⟨o, r₁, hbyte⟩ : ∃ o r₁, r.readByte bufioSize = (o, r₁) := ⟨_, _, rfl⟩
  obtain ⟨hok, hpop⟩ := Buffered.readByte_spec bufioSize_pos hr hbyte
  rw [hbyte] at h
  cases o with
  | none =>
    cases h
    exact ⟨hok, by rw [show r.pending = [] from hpop, takeLine]; rfl⟩
  | some c =>
    rw [show r.pending = c :: r₁.pending from hpop, takeLine_cons]
    dsimp only at h
    split at h
    · next hc =>
      cases h
      exact ⟨hok, if_pos hc⟩
    · next hc =>
      rw [if_neg hc]
      match room, h with
      | 0, h =>
        cases h
        exact ⟨hok, rfl⟩
      | room + 1, h => exact readChunkLine_spec room hok h

theorem takeLine_eq_ok {room : Nat} {raw : Bytes} : takeLine room raw s = .ok (line, rest) ↔
    ∃ l, s = l ++ 10 :: rest ∧ (10 : UInt8) ∉ l ∧ l.length ≤ room ∧ line = chomp (raw ++ l) := by
  induction s generalizing room raw with
  | nil => simp [takeLine]
  | cons c s ih =>
    rw [takeLine_cons]
    by_cases hc : c = 10
    · subst hc
      rw [if_pos rfl, Except.ok.injEq, Prod.mk.injEq]
      constructor
      · rintro ⟨rfl, rfl⟩
        exact ⟨[], rfl, by simp, by simp, by simp⟩
      · rintro ⟨l, hs, hl, -, rfl⟩
        cases l with
        | nil =>
          simp only [nil_append, List.cons.injEq] at hs
          exact ⟨by simp, hs.2⟩
        | cons x l =>
          simp only [cons_append, List.cons.injEq] at hs
          simp [← hs.1] at hl
    · rw [if_neg hc]
      constructor
      · intro h
        cases room with
        | zero => cases h
        | succ room =>
          obtain ⟨l, rfl, hl, hlen, rfl⟩ := ih.1 h
          exact ⟨c :: l, rfl, by simp [hl, Ne.symm hc], by simpa using hlen, by simp⟩
      · rintro ⟨l, hs, hl, hlen, rfl⟩
        cases l with
        | nil =>
          simp only [nil_append, List.cons.injEq] at hs
          exact absurd hs.1 hc
        | cons x l =>
          simp only [cons_append, List.cons.injEq] at hs
          obtain ⟨rfl, rfl⟩ := hs
          cases room with
          | zero => simp at hlen
          | succ room =>
            exact ih.2 ⟨l, rfl, fun hm => hl (mem_cons_of_mem c hm), by simpa using hlen, by simp⟩

theorem takeLine_eq {max : Nat} : takeLine max [] s = .ok (line, rest) ↔ ∃ bs, Line max bs line ∧ s = bs ++ rest := by
  rw [takeLine_eq_ok]
  constructor
  · rintro ⟨l, rfl, hl, hlen, rfl⟩
    exact ⟨l ++ [10], ⟨l, rfl, hl, hlen, rfl⟩, by simp⟩
  · rintro ⟨_, ⟨l, rfl, hl, hlen, rfl⟩, rfl⟩
    exact ⟨l, by simp, hl, hlen, by simp⟩

theorem Line.unique {max : Nat} {bs' line' rest' : Bytes} (h : Line max bs line) (h' : Line max bs' line')
    (he : bs ++ rest = bs' ++ rest') : line = line' ∧ rest = rest' := by
  have h₁ : takeLine max [] (bs ++ rest) = .ok (line, rest) := takeLine_eq.2 ⟨bs, h, rfl⟩
  have h₂ : takeLine max [] (bs ++ rest) = .ok (line', rest') := takeLine_eq.2 ⟨bs', h', he⟩
  rw [h₁, Except.ok.injEq, Prod.mk.injEq] at h₂
  exact h₂

/-- `readTrailers` of what is to come. -/
def takeTrailers : Nat → Nat → Bytes → Except BodyError Bytes
  | 0, _, _ => .error .trailersTooLong
  | fuel + 1, budget, s =>
    match takeLine maxTrailerLine [] s with
    | .error e => .error e
    | .ok (line, rest) =>
      if line = [] then .ok rest
      else if budget < line.length + 2 then .error .trailersTooLong
      else
        match trailerLine line with
        | none => .error .trailer
        | some _ => takeTrailers fuel (budget - (line.length + 2)) rest

theorem readTrailers_spec {fuel budget : Nat} {trailer trailer' : List (Bytes × Bytes)} {res : Except BodyError Unit}
    (hr : r.Ok) (h : readTrailers fuel budget trailer r = (res, trailer', r')) :
    r'.Ok ∧ takeTrailers fuel budget r.pending = res.map fun _ => r'.pending := by
  induction fuel generalizing budget trailer r with
  | zero =>
    cases h
    exact ⟨hr, rfl⟩
  | succ fuel ih =>
    rw [readTrailers] at h
    obtain ⟨o, r₁, hline⟩ : ∃ o r₁, readChunkLine maxTrailerLine [] r = (o, r₁) := ⟨_, _, rfl⟩
    obtain ⟨hok, htake⟩ := readChunkLine_spec maxTrailerLine hr hline
    rw [hline] at h
    rw [takeTrailers, htake]
    cases o with
    | error e =>
      cases h
      exact ⟨hok, rfl⟩
    | ok line =>
      dsimp only [Except.map] at h ⊢
      split at h
      · next hnil =>
        cases h
        rw [if_pos hnil]
        exact ⟨hok, rfl⟩
      · next hnil =>
        rw [if_neg hnil]
        split at h
        · next hb =>
          cases h
          rw [if_pos hb]
          exact ⟨hok, rfl⟩
        · next hb =>
          rw [if_neg hb]
          cases ht : trailerLine line with
          | none =>
            rw [ht] at h
            cases h
            exact ⟨hok, rfl⟩
          | some kv =>
            rw [ht] at h
            exact ih hok h

theorem takeTrailers_eq {fuel budget : Nat} (hf : budget < fuel) :
    takeTrailers fuel budget s = .ok rest ↔ ∃ tr, Trailers budget tr ∧ s = tr ++ rest := by
  induction fuel generalizing budget s with
  | zero => omega
  | succ fuel ih =>
    rw [takeTrailers]
    constructor
    · intro h
      cases hl : takeLine maxTrailerLine [] s with
      | error e => rw [hl] at h; cases h
      | ok p =>
        obtain ⟨line, rest₁⟩ := p
        obtain ⟨bs, hbs, rfl⟩ := takeLine_eq.1 hl
        rw [hl] at h
        dsimp only at h
        split at h
        · next hnil =>
          cases h
          exact ⟨bs, .stop (hnil ▸ hbs), rfl⟩
        · next hnil =>
          split at h
          · cases h
          · next hb =>
            cases ht : trailerLine line with
            | none => rw [ht] at h; cases h
            | some kv =>
              rw [ht] at h
              obtain ⟨tr, htr, rfl⟩ := (ih (by omega)).1 h
              exact ⟨bs ++ tr, .line hbs hnil (by omega) (by simp [ht]) htr, by simp⟩
    · rintro ⟨tr, htr, rfl⟩
      cases htr with
      | stop hbs =>
        rw [takeLine_eq.2 ⟨_, hbs, rfl⟩]
        exact if_pos rfl
      | @line _ bs line rest' hbs hne hb ht hr =>
        have hl : takeLine maxTrailerLine [] (bs ++ rest' ++ rest) = .ok (line, rest' ++ rest) :=
          takeLine_eq.2 ⟨bs, hbs, by simp⟩
        obtain ⟨kv, hkv⟩ := Option.ne_none_iff_exists'.1 ht
        rw [hl]
        dsimp only
        rw [if_neg hne, if_neg (by omega), hkv]
        exact (ih (by omega)).2 ⟨rest', hr, rfl⟩

theorem Trailers.unique {budget : Nat} {tr tr' rest' : Bytes} (h : Trailers budget tr) (h' : Trailers budget tr')
    (he : tr ++ rest = tr' ++ rest') : rest = rest' := by
  have h₁ : takeTrailers (budget + 1) budget (tr ++ rest) = .ok rest := (takeTrailers_eq (Nat.lt_succ_self budget)).2 ⟨tr, h, rfl⟩
  have h₂ := (takeTrailers_eq (Nat.lt_succ_self budget)).2 ⟨tr', h', he⟩
  rw [h₁, Except.ok.injEq] at h₂
  exact h₂

theorem Frames.of_chunk {head body payload after : Bytes} (hl : Line maxChunkHeader head line)
    (hsize : parseChunkHeader line = .ok body.length) (hb : body ≠ []) (h : Frames (head ++ (body ++ 13 :: 10 :: rest)) payload after) :
    ∃ more, payload = body ++ more ∧ Frames rest more after := by
  generalize hs : head ++ (body ++ 13 :: 10 :: rest) = s at h
  cases h with
  | last hl' hz' ht' =>
    obtain ⟨rfl, -⟩ := hl.unique hl' hs
    rw [hz', Except.ok.injEq] at hsize
    exact absurd (length_eq_zero_iff.1 hsize.symm) hb
  | chunk hl' hs' hb' hr' =>
    obtain ⟨rfl, hrest⟩ := hl.unique hl' hs
    rw [hsize, Except.ok.injEq] at hs'
    obtain ⟨rfl, htail⟩ := append_inj hrest hs'
    simp only [List.cons.injEq, true_and] at htail
    subst htail
    exact ⟨_, rfl, hr'⟩

theorem Frames.unique {payload payload' after after' : Bytes} (h : Frames s payload after) (h' : Frames s payload' after') :
    payload = payload' ∧ after = after' := by
  induction h generalizing payload' with
  | @last head line tr after hl hz ht =>
    generalize hs : head ++ (tr ++ after) = s at h'
    cases h' with
    | last hl' hz' ht' =>
      obtain ⟨-, hrest⟩ := hl.unique hl' hs
      exact ⟨rfl, ht.unique ht' hrest⟩
    | chunk hl' hs' hb' hr' =>
      obtain ⟨rfl, -⟩ := hl.unique hl' hs
      rw [hz, Except.ok.injEq] at hs'
      exact absurd (length_eq_zero_iff.1 hs'.symm) hb'
  | @chunk head line body rest payload after hl hsize hb hr ih =>
    obtain ⟨more, rfl, hmore⟩ := Frames.of_chunk hl hsize hb h'
    obtain ⟨rfl, rfl⟩ := ih hmore
    exact ⟨rfl, rfl⟩

theorem Cut.not_frames {declared : Option Nat} {total : Nat} (h : Cut declared total s) {payload after : Bytes} :
    ¬ Frames s payload after := by
  induction h generalizing payload with
  | @here total n head line part hl hsize hd hn hp hlen =>
    intro hf
    generalize hs : head ++ part = s at hf
    cases hf with
    | last hl' hz' ht' =>
      obtain ⟨rfl, -⟩ := hl.unique hl' hs
      rw [hsize, Except.ok.injEq] at hz'
      subst hz'
      exact absurd hn (by decide)
    | chunk hl' hs' hb' hr' =>
      obtain ⟨rfl, rfl⟩ := hl.unique hl' hs
      rw [hsize, Except.ok.injEq] at hs'
      rw [length_append, length_cons] at hlen
      omega
  | @chunk total head line body rest hl hsize hb hd hr ih =>
    intro hf
    obtain ⟨more, -, hmore⟩ := Frames.of_chunk hl hsize hb hf
    exact ih hmore

end Lines

end Pgvs3.Ingest
