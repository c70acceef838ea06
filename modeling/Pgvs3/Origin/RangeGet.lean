import Pgvs3.Data.Bytes
import Pgvs3.Data.Text
import Pgvs3.Ns
/-!
# Ranged reads of an origin

`GetRange` with `length > 0`.

An `Answer` is what came back: the status and the headers that the drivers look at, which bytes the
origin sent and how many of them arrived. `Answer.Truthful` is what HTTP promises: `Content-Range`,
where it can be read, and `Content-Length`, where it is there, say what was sent; a body with a
length or in chunks that ends without an error is complete, one that ends with the connection may be
cut anywhere.

The S3 driver believes a 206 whose `Content-Range` is missing or is one that it cannot read
(`Bytes 0-1/4`), the HTTP driver every 206 and a 200 of any length that it is not told: `getRange_shifted`.
-/

namespace Pgvs3.Origin

open List

/-! ## What came back -/

structure Answer where
  status : Nat
  /-- `Header.Get("Content-Range")`, empty when it is missing. -/
  contentRange : Text
  contentLength : Option Nat
  chunked : Bool
  /-- The bytes `[first, past)` of the object were sent. -/
  first : Nat
  past : Nat
  /-- So many of them arrived. -/
  received : Nat
deriving DecidableEq, Repr

def Answer.body (a : Answer) (obj : Bytes) : Bytes := obj.extract a.first (a.first + a.received)

/-! ## The drivers -/

inductive RangeError where
  /-- `range %d+%d overflows`. -/
  | overflows (offset length : Int)
  /-- The error of a status that is neither 200 nor 206. -/
  | status (code : Nat)
  /-- `origin returned a partial response for a whole-object GET`. -/
  | partialWhole
  /-- `origin ignored Range ..`, `wanted` bytes at `offset`. -/
  | ignoredRange (offset wanted : Int)
  /-- `range returned %d bytes, wanted %d`. -/
  | returned (got wanted : Int)
  /-- `range starts at %d, wanted %d`. -/
  | startsAt (start wanted : Int)
  /-- `range ended at %d, wanted %d`. -/
  | endedAt (last wanted : Int)
deriving DecidableEq, Repr

/-- `strings.TrimSpace`. -/
def trimSpace (s : Text) : Text := Data.trim Data.isSpace s

/-- `s3client/object.go:756-776`. -/
def parseContentRange (value : Text) : Option (Int × Int) :=
  let value := trimSpace value
  if !"bytes ".toList.isPrefixOf value then none
  else
    let rest := value.drop 6
    let spec := ((Data.cut '/' rest).map (·.1)).getD rest
    match Data.cut '-' spec with
    | none => none
    | some (left, right) =>
      match Data.parseInt (trimSpace left), Data.parseInt (trimSpace right) with
      | some start, some stop => if stop < start then none else some (start, stop)
      | _, _ => none

/-- What is said of `size` bytes is so. A `Content-Range` that does not read as a range says
nothing. -/
structure Answer.Truthful (size : Nat) (a : Answer) : Prop where
  whole : a.status = 200 → a.first = 0 ∧ a.past = size
  part : a.status = 206 → a.first < a.past ∧ a.past ≤ size
  contentRange : ∀ start stop, parseContentRange a.contentRange = some (start, stop) →
    start = a.first ∧ stop = a.past - 1
  contentLength : ∀ n, a.contentLength = some n → n = a.past - a.first ∧ a.received = n
  chunked : a.chunked = true → a.received = a.past - a.first
  received : a.received ≤ a.past - a.first

/-- `requested`: a `Range` header was sent (`s3client/object.go:704-737`). -/
def checkRangeResponse (a : Answer) (offset length : Int) (requested : Bool) :
    Except RangeError Unit :=
  if !requested then
    if a.status = 200 then .ok () else .error .partialWhole
  else if a.status = 200 then
    if 0 < length then
      if offset = 0 ∧ a.contentLength.map Int.ofNat = some length then .ok ()
      else .error (.ignoredRange offset length)
    else if offset = 0 then .ok ()
    else .error (.ignoredRange offset length)
  else
    match parseContentRange a.contentRange with
    | none =>
      match a.contentLength with
      | some n => if 0 < length ∧ (n : Int) ≠ length then .error (.returned n length) else .ok ()
      | none => .ok ()
    | some (start, stop) =>
      if start ≠ offset then .error (.startsAt start offset)
      else if 0 < length ∧ stop < offset + length - 1
        then .error (.endedAt stop (offset + length - 1))
      else .ok ()

def maxInt64 : Int := 2 ^ 63 - 1

/-- The body goes through a reader limited to `length` (`origin.go:499-501`). -/
def s3GetRange (obj : Bytes) (offset length : Nat) (a : Answer) : Except RangeError Bytes :=
  if maxInt64 - ((length : Int) - 1) < offset then .error (.overflows offset length)
  else if a.status ≠ 206 ∧ a.status ≠ 200 then .error (.status a.status)
  else match checkRangeResponse a offset length true with
    | .error e => .error e
    | .ok () => .ok ((a.body obj).take length)

/-- `origin.go:826-848`. -/
def httpGetRange (obj : Bytes) (offset length : Nat) (a : Answer) : Except RangeError Bytes :=
  if a.status = 206 then .ok (a.body obj)
  else if a.status = 200 then
    if 0 < offset ∨ (a.contentLength.any fun n => length < n) = true
      then .error (.ignoredRange offset length)
    else .ok (a.body obj)
  else .error (.status a.status)

inductive Driver where
  | s3
  | http
deriving DecidableEq, Repr

/-- `origin.go:313-325`. -/
def Driver.getRange : Driver → Bytes → Nat → Nat → Answer → Except RangeError Bytes
  | .s3 => s3GetRange
  | .http => httpGetRange

def Exactly (obj : Bytes) (offset length : Nat) (b : Bytes) : Prop :=
  b = obj.extract offset (offset + length) ∧ b.length = length

/-- The asked bytes or an error, whatever the bytes of the object are. -/
def Driver.Reliable (d : Driver) (size offset length : Nat) (a : Answer) : Prop :=
  ∀ obj : Bytes, obj.length = size → ∀ b, d.getRange obj offset length a = .ok b →
    Exactly obj offset length b

/-- What must be true of an answer that the driver lets pass. -/
def Driver.Exact (d : Driver) (offset length : Nat) (a : Answer) : Prop :=
  match d with
  | .s3 =>
    a.status = 206 → (offset + length : Int) ≤ 2 ^ 63 →
      (parseContentRange a.contentRange = none → (∀ n, a.contentLength = some n → n = length) →
        a.first = offset ∧ length ≤ a.received) ∧
      (parseContentRange a.contentRange ≠ none → a.first = offset → offset + length ≤ a.past →
        length ≤ a.received)
  | .http =>
    (a.status = 206 → a.first = offset ∧ a.received = length) ∧
      (a.status = 200 → offset = 0 → (∀ n, a.contentLength = some n → n ≤ length) →
        a.received = length)

/-! ## Which answers pass -/

variable {size offset length : Nat} {a : Answer}

/-- The S3 driver takes an answer to a request that does not overflow. -/
def S3Takes (offset length : Nat) (a : Answer) : Prop :=
  (offset + length : Int) ≤ 2 ^ 63 ∧
    ((a.status = 200 ∧ offset = 0 ∧ a.contentLength = some length) ∨
     (a.status = 206 ∧ parseContentRange a.contentRange = none ∧ ∀ n, a.contentLength = some n →
       n = length) ∨
     (a.status = 206 ∧ parseContentRange a.contentRange ≠ none ∧ a.first = offset ∧
       offset + length ≤ a.past))

theorem S3Takes.status (h : S3Takes offset length a) : a.status = 206 ∨ a.status = 200 := by
  rcases h.2 with h | h | h
  · exact .inr h.1
  · exact .inl h.1
  · exact .inl h.1

def HttpTakes (offset length : Nat) (a : Answer) : Prop :=
  a.status = 206 ∨ (a.status = 200 ∧ offset = 0 ∧ ∀ n, a.contentLength = some n → n ≤ length)

theorem checkRangeResponse_whole (offset : Nat) (hs : a.status = 200) (hlen : 0 < length) :
    checkRangeResponse a offset length true = .ok () ↔ offset = 0 ∧
      a.contentLength = some length := by
  cases hc : a.contentLength with
  | none => simp [checkRangeResponse, hs, hlen, hc]
  | some n =>
    simp only [checkRangeResponse, hs, hc, Bool.not_true, Bool.false_eq_true, if_false, if_true,
      Int.natCast_pos, hlen, Option.map_some, Option.some.injEq, Int.ofNat_eq_natCast,
      Int.natCast_eq_zero, Int.natCast_inj]
    split <;> simp_all

theorem checkRangeResponse_part (offset : Nat) (h : a.Truthful size) (hs : a.status = 206)
    (hlen : 0 < length) :
    checkRangeResponse a offset length true = .ok () ↔
      (parseContentRange a.contentRange = none ∧ ∀ n, a.contentLength = some n → n = length) ∨
      (parseContentRange a.contentRange ≠ none ∧ a.first = offset ∧ offset + length ≤ a.past) := by
  cases hr : parseContentRange a.contentRange with
  | none =>
    -- Without a range that can be read the length is the only check.
    cases hc : a.contentLength with
    | none => simp [checkRangeResponse, hs, hr, hc]
    | some n =>
      simp only [checkRangeResponse, hs, hr, hc]
      by_cases hn : n = length <;> simp [hn, hlen]
  | some range =>
    obtain ⟨start, stop⟩ := range
    obtain ⟨rfl, rfl⟩ := h.contentRange start stop hr
    simp only [checkRangeResponse, hs, hr]
    by_cases hf : a.first = offset
    · by_cases hp : offset + length ≤ a.past
      · have : ¬ (a.past : Int) - 1 < offset + length - 1 := by omega
        simp [hf, hp, this]
      · have : (a.past : Int) - 1 < offset + length - 1 := by omega
        simp [hf, hp, this, hlen]
    · simp [hf]

theorem s3GetRange_eq_ok (h : a.Truthful size) (hlen : 0 < length) (obj b : Bytes) :
    s3GetRange obj offset length a = .ok b ↔ S3Takes offset length a ∧
      b = (a.body obj).take length := by
  unfold s3GetRange S3Takes maxInt64
  by_cases hover : (offset + length : Int) ≤ 2 ^ 63
  · rw [if_neg (by omega)]
    by_cases hs : a.status = 200
    · have hiff := checkRangeResponse_whole offset hs hlen
      cases hc : checkRangeResponse a offset length true <;> simp_all [eq_comm]
    · by_cases hp : a.status = 206
      · have hiff := checkRangeResponse_part offset h hp hlen
        cases hc : checkRangeResponse a offset length true <;> simp_all [eq_comm]
      · simp [hs, hp]
  · rw [if_pos (by omega)]
    simp only [reduceCtorEq, false_iff]
    intro ht
    exact hover ht.1.1

theorem httpGetRange_eq_ok (obj b : Bytes) :
    httpGetRange obj offset length a = .ok b ↔ HttpTakes offset length a ∧ b = a.body obj := by
  unfold httpGetRange HttpTakes
  by_cases hp : a.status = 206
  · simp [hp, eq_comm]
  · by_cases hs : a.status = 200
    · cases hc : a.contentLength with
      | none =>
        by_cases ho : offset = 0
        · simp [hs, ho, eq_comm]
        · simp [hs, ho, Nat.pos_of_ne_zero ho]
      | some n =>
        by_cases ho : offset = 0
        · by_cases hn : n ≤ length
          · simp [hs, ho, hn, Nat.not_lt.2 hn, eq_comm]
          · simp [hs, ho, hn, Nat.lt_of_not_le hn]
        · simp [hs, ho, Nat.pos_of_ne_zero ho]
    · simp [hp, hs]

/-! ## Which bytes pass -/

/-- A part is the asked part of every object of a size only if it is the same part. -/
theorem exactly_extract_iff {first n : Nat} (hlen : 0 < length) (hn : first + n ≤ size) :
    (∀ obj : Bytes, obj.length = size → Exactly obj offset length (obj.extract first (first + n))) ↔
    first = offset ∧ n = length := by
  constructor
  · intro h
    -- An object with one marked byte, where the asked part starts.
    obtain ⟨heq, hl⟩ := h ((List.replicate size 0).set offset 1) (by simp)
    have hnl : n = length := by
      rw [length_extract, length_set, length_replicate] at hl
      omega
    have hoff : offset + length ≤ size := by
      rw [heq, length_extract, length_set, length_replicate] at hl
      omega
    refine ⟨?_, hnl⟩
    by_contra hne
    have hhead := congrArg (fun l : Bytes => l[0]?) heq
    simp only [extract_eq, getElem?_take, getElem?_drop, getElem?_set, getElem?_replicate,
      length_replicate, Nat.add_zero, Nat.add_sub_cancel_left] at hhead
    rw [if_pos (by omega), if_neg (Ne.symm hne), if_pos (by omega), if_pos (by omega)] at hhead
    simp [show offset < size by omega] at hhead
  · rintro ⟨rfl, rfl⟩ obj hobj
    refine ⟨rfl, ?_⟩
    rw [length_extract, hobj]
    omega

theorem Answer.Truthful.within (h : a.Truthful size) (hs : a.status = 206 ∨ a.status = 200) :
    a.first + a.received ≤ size := by
  have hr := h.received
  rcases hs with hs | hs
  · have := h.part hs
    omega
  · have := h.whole hs
    omega

theorem take_body (a : Answer) (obj : Bytes) (n : Nat) :
    (a.body obj).take n = obj.extract a.first (a.first + min n a.received) := by
  rw [Answer.body, extract_eq, extract_eq, take_take]
  congr 1
  omega

theorem s3_reliable_iff (h : a.Truthful size) (hlen : 0 < length) :
    Driver.s3.Reliable size offset length a ↔
      (S3Takes offset length a → a.first = offset ∧ length ≤ a.received) := by
  constructor
  · intro hall ht
    have hwithin := h.within ht.status
    have hex := (exactly_extract_iff hlen (by omega)).1 fun obj hobj =>
      take_body a obj length ▸ hall obj hobj _ ((s3GetRange_eq_ok h hlen obj _).2 ⟨ht, rfl⟩)
    exact ⟨hex.1, by omega⟩
  · intro hex obj hobj b hb
    obtain ⟨ht, rfl⟩ := (s3GetRange_eq_ok h hlen obj b).1 hb
    obtain ⟨hfirst, hreceived⟩ := hex ht
    have hwithin := h.within ht.status
    rw [take_body]
    exact (exactly_extract_iff hlen (by omega)).2 ⟨hfirst, by omega⟩ obj hobj

theorem http_reliable_iff (h : a.Truthful size) (hlen : 0 < length) :
    Driver.http.Reliable size offset length a ↔
      (HttpTakes offset length a → a.first = offset ∧ a.received = length) := by
  constructor
  · intro hall ht
    have hwithin := h.within (ht.imp id And.left)
    exact (exactly_extract_iff hlen hwithin).1 fun obj hobj =>
      hall obj hobj _ ((httpGetRange_eq_ok obj _).2 ⟨ht, rfl⟩)
  · intro hex obj hobj b hb
    obtain ⟨ht, rfl⟩ := (httpGetRange_eq_ok obj b).1 hb
    exact (exactly_extract_iff hlen (h.within (ht.imp id And.left))).2 (hex ht) obj hobj

/-! ## The drivers -/

/-- **Ranged reads.** A truthful answer that a driver lets pass gives the asked bytes of every
object it can be about exactly under `Driver.Exact`. -/
theorem getRange_exact_iff (d : Driver) {size offset length : Nat} {a : Answer}
    (h : a.Truthful size) (hlen : 0 < length) :
    d.Reliable size offset length a ↔ d.Exact offset length a := by
  cases d with
  | s3 =>
    rw [s3_reliable_iff h hlen]
    constructor
    · intro hex hs hover
      refine ⟨fun hr hc => hex ⟨hover, .inr (.inl ⟨hs, hr, hc⟩)⟩, fun hr hf hp => ?_⟩
      exact (hex ⟨hover, .inr (.inr ⟨hs, hr, hf, hp⟩)⟩).2
    · rintro hex ⟨hover, ⟨hs, ho, hc⟩ | ⟨hs, hr, hc⟩ | ⟨hs, hr, hf, hp⟩⟩
      · -- The whole object, and its length says that it is the asked part.
        have hwhole := h.whole hs
        have hlength := h.contentLength length hc
        omega
      · exact (hex hs hover).1 hr hc
      · exact ⟨hf, (hex hs hover).2 hr hf hp⟩
  | http =>
    rw [http_reliable_iff h hlen]
    constructor
    · intro hex
      exact ⟨fun hs => hex (.inl hs), fun hs ho hc => (hex (.inr ⟨hs, ho, hc⟩)).2⟩
    · rintro hex (hs | ⟨hs, ho, hc⟩)
      · exact hex.1 hs
      · have hwhole := h.whole hs
        exact ⟨by omega, hex.2 hs ho hc⟩

/-- Four bytes at 2 of an object of ten, with the `Content-Range` of the asked part. -/
def sampleAnswer : Answer := ⟨206, "bytes 2-5/10".toList, some 4, false, 2, 6, 4⟩

theorem sampleAnswer_truthful : sampleAnswer.Truthful 10 where
  whole := by decide
  part := by decide
  contentRange := by
    intro start stop hr
    rw [show parseContentRange sampleAnswer.contentRange = some (2, 5) by decide +kernel] at hr
    cases hr
    decide
  contentLength := by
    intro n hn
    cases hn
    decide
  chunked := by decide
  received := by decide

theorem getRange_exact_sample : Driver.s3.Reliable 10 2 4 sampleAnswer ∧
    Driver.http.Reliable 10 2 4 sampleAnswer := by
  refine ⟨(getRange_exact_iff .s3 sampleAnswer_truthful (by decide)).2 ?_,
    (getRange_exact_iff .http sampleAnswer_truthful (by decide)).2 ?_⟩
  · intro _ _
    exact ⟨fun hr => absurd hr (by decide +kernel), fun _ _ _ => by decide⟩
  · exact ⟨fun _ => by decide, fun hs => absurd hs (by decide)⟩

/-- Both drivers take the first two of four bytes for the last two, from an answer without
`Content-Range`. -/
theorem getRange_shifted : ¬ ∃ d : Driver, ∀ (obj : Bytes) (offset length : Nat)
    (a : Answer), 0 < length →
    a.Truthful obj.length → ∀ b, d.getRange obj offset length a = .ok b →
      Exactly obj offset length b := by
  rintro ⟨d, h⟩
  let a : Answer := ⟨206, [], some 2, false, 0, 2, 2⟩
  have ht : a.Truthful 4 := {
    whole := by decide
    part := by decide
    contentRange := fun _ _ hr =>
      absurd (hr.symm.trans (show parseContentRange [] = none by decide)) (Option.some_ne_none _)
    contentLength := by
      intro n hn
      cases hn
      decide
    chunked := by decide
    received := by decide }
  have hpass : d.getRange [10, 20, 30, 40] 2 2 a = .ok [10, 20] := by
    cases d <;> decide
  exact absurd (h [10, 20, 30, 40] 2 2 a (by decide) ht [10, 20] hpass).1 (by decide)

end Pgvs3.Origin
