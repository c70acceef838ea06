import Pgvs3.Ingest.Chunked
/-!
# What a turn of the decoder keeps

`Accepts c payload after` says that what is to come completes the body: `payload` is still to be
delivered, `after` is left behind the trailer section. `Follows` says what a turn does to it.
-/

namespace Pgvs3.Ingest

open Data (Buffered)
open List Option

variable {c c' : ChunkedBody} {payload after out : Bytes} {m : Nat}

/-- The flags belong together. -/
structure Fine (c : ChunkedBody) : Prop where
  err : c.err = none
  ok : c.r.Ok
  bytes : 0 < c.remaining → c.needCRLF = false ∧ c.done = false
  crlf : c.needCRLF = true → c.done = false

def Ahead (c : ChunkedBody) (payload after : Bytes) : Prop :=
  if 0 < c.remaining then
    ∃ body rest more, c.r.pending = body ++ 13 :: 10 :: rest ∧ body.length = c.remaining ∧ Frames rest more after ∧ payload = body ++ more
  else if c.needCRLF then ∃ rest, c.r.pending = 13 :: 10 :: rest ∧ Frames rest payload after
  else if c.done then payload = [] ∧ after = c.r.pending
  else Frames c.r.pending payload after

structure Accepts (c : ChunkedBody) (payload after : Bytes) : Prop where
  ahead : Ahead c payload after
  length : ∀ n, c.decodedLen = some n → c.total + payload.length = n

def CutsFrom (c : ChunkedBody) : Prop :=
  if 0 < c.remaining then
    (bufioSize ≤ c.remaining ∧ c.r.pending ≠ [] ∧ c.r.pending.length ≤ c.remaining) ∨
      ∃ body rest, c.r.pending = body ++ 13 :: 10 :: rest ∧ body.length = c.remaining ∧ Cut c.decodedLen (c.total + c.remaining) rest
  else if c.needCRLF then ∃ rest, c.r.pending = 13 :: 10 :: rest ∧ Cut c.decodedLen c.total rest
  else if c.done then False
  else Cut c.decodedLen c.total c.r.pending

/-- How many turns there are before one that returns. -/
def rank (c : ChunkedBody) : Nat := if 0 < c.remaining then 1 else if c.needCRLF then 3 else if c.done then 1 else 2

inductive Follows (c : ChunkedBody) : Turn → Prop
  | again {c' : ChunkedBody} (fine : Fine c') (rank : rank c' < rank c)
      (shorter : c'.r.pending.length ≤ c.r.pending.length)
      (accepts : ∀ payload after, Accepts c payload after ↔ Accepts c' payload after) (cuts : CutsFrom c' → CutsFrom c) :
      Follows c (.again c')
  | bytes {out : Bytes} {c' : ChunkedBody} (fine : Fine c') (shorter : c'.r.pending.length < c.r.pending.length)
      (accepts : ∀ payload after, Accepts c payload after ↔ ∃ more, payload = out ++ more ∧ Accepts c' more after)
      (cuts : CutsFrom c' → CutsFrom c) : Follows c (.ret out none c')
  /-- The end of the stream is taken for the end of the body. -/
  | cut {out : Bytes} {c' : ChunkedBody} (err : c'.err = some .eof) (cuts : CutsFrom c)
      (accepts : ∀ payload after, ¬ Accepts c payload after) : Follows c (.ret out none c')
  | finish {after : Bytes} {c' : ChunkedBody} (accepts : Accepts c [] after) : Follows c (.ret [] (some .eof) c')
  | error {e : BodyError} {c' : ChunkedBody} (he : e ≠ .eof) (accepts : ∀ payload after, ¬ Accepts c payload after) :
      Follows c (.ret [] (some e) c')

theorem follows_fail {r : Buffered UInt8} {trailer : List (Bytes × Bytes)} {done : Bool} (e : BodyError)
    (h : ∀ payload after, ¬ Accepts c payload after) : Follows c (ChunkedBody.fail { c with r, trailer, done } e) := by
  refine .error ?_ h
  split
  · exact nofun
  · next he => exact he

theorem follows_again {bs : Bytes} (hf : Fine c') (hr : rank c' < rank c) (hp : c.r.pending = bs ++ c'.r.pending)
    (hd : c'.decodedLen = c.decodedLen) (ht : c'.total = c.total) 
    (ha : ∀ payload after, Ahead c payload after ↔ Ahead c' payload after) (hc : CutsFrom c' → CutsFrom c) : Follows c (.again c') := by
  refine .again hf hr (by rw [hp, length_append]; omega)
    (fun payload after => ⟨fun h => ⟨(ha _ _).1 h.ahead, ?_⟩, fun h => ⟨(ha _ _).2 h.ahead, ?_⟩⟩) hc
  · rw [hd, ht]
    exact h.length
  · rw [← hd, ← ht]
    exact h.length

/-! ## One lemma for every kind of turn -/

theorem ahead_bytes (h : 0 < c.remaining) : Ahead c payload after ↔
    ∃ body rest more, c.r.pending = body ++ 13 :: 10 :: rest ∧ body.length = c.remaining ∧ Frames rest more after ∧
      payload = body ++ more := by
  rw [Ahead, if_pos h]

theorem ahead_after_bytes (hrem : 0 < c.remaining) (hpend : c.r.pending = out ++ c'.r.pending)
    (hlen : out.length ≤ c.remaining) (hrem' : c'.remaining = c.remaining - out.length) 
    (hcrlf : c'.needCRLF = (c.remaining - out.length == 0)) :
    Ahead c payload after ↔ ∃ more, payload = out ++ more ∧ Ahead c' more after := by
  rw [ahead_bytes hrem, hpend]
  by_cases hall : out.length = c.remaining
  · have hz : c'.remaining = 0 := by omega
    have hahead : ∀ more, Ahead c' more after ↔ ∃ rest, c'.r.pending = 13 :: 10 :: rest ∧ Frames rest more after := by
      intro more
      rw [Ahead, if_neg (by omega), if_pos (by rw [hcrlf]; simp [hall])]
    simp only [hahead]
    constructor
    · rintro ⟨body, rest, more, hsplit, hbody, hf, rfl⟩
      obtain ⟨rfl, htail⟩ := append_inj hsplit (hall.trans hbody.symm)
      exact ⟨more, rfl, rest, htail, hf⟩
    · rintro ⟨more, rfl, rest, htail, hf⟩
      exact ⟨out, rest, more, by rw [htail], hall, hf, rfl⟩
  · have hpos : 0 < c'.remaining := by omega
    simp only [ahead_bytes hpos]
    constructor
    · rintro ⟨body, rest, more, hsplit, hbody, hf, rfl⟩
      obtain ⟨tail, rfl, hrest⟩ : ∃ tail, body = out ++ tail ∧ c'.r.pending = tail ++ 13 :: 10 :: rest := by
        rcases append_eq_append_iff.1 hsplit with ⟨tail, hb, ht⟩ | ⟨tail, ho, ht⟩
        · exact ⟨tail, hb, ht⟩
        · have hl := congrArg List.length ho
          rw [length_append] at hl
          obtain rfl : tail = [] := length_eq_zero_iff.1 (by omega)
          simp only [append_nil] at ho
          exact absurd (ho ▸ hbody) hall
      rw [length_append] at hbody
      exact ⟨tail ++ more, by simp, tail, rest, more, hrest, by omega, hf, rfl⟩
    · rintro ⟨_, rfl, tail, rest, more, hrest, hlen', hf, rfl⟩
      exact ⟨out ++ tail, rest, more, by simp [hrest], by rw [length_append]; omega, hf, by simp⟩

theorem cuts_after_bytes (hrem : 0 < c.remaining) (hpend : c.r.pending = out ++ c'.r.pending)
    (hne : out ≠ []) (hlen : out.length ≤ c.remaining) (hrem' : c'.remaining = c.remaining - out.length)
    (hcrlf : c'.needCRLF = (c.remaining - out.length == 0)) (htotal : c'.total = c.total + out.length)
    (hd : c'.decodedLen = c.decodedLen) (h : CutsFrom c') : CutsFrom c := by
  rw [CutsFrom, if_pos hrem, hpend]
  have hsum : c'.total + c'.remaining = c.total + c.remaining := by omega
  by_cases hall : out.length = c.remaining
  · rw [CutsFrom, if_neg (by omega), if_pos (by rw [hcrlf]; simp [hall])] at h
    obtain ⟨rest, hrest, hcut⟩ := h
    refine .inr ⟨out, rest, by rw [hrest], hall, ?_⟩
    rwa [hd, htotal, hall] at hcut
  · rw [CutsFrom, if_pos (by omega)] at h
    rcases h with ⟨hbig, hne', hlen'⟩ | ⟨body, rest, hrest, hbody, hcut⟩
    · refine .inl ⟨by omega, by simp [hne], ?_⟩
      rw [length_append]
      omega
    · refine .inr ⟨out ++ body, rest, by simp [hrest], by rw [length_append]; omega, ?_⟩
      rwa [hd, hsum] at hcut

theorem follows_bytes (hf : Fine c) (hrem : 0 < c.remaining) (hok : c'.r.Ok)
    (hpend : c.r.pending = out ++ c'.r.pending) (hne : out ≠ []) (hlen : out.length ≤ c.remaining)
    (hrem' : c'.remaining = c.remaining - out.length) (hcrlf : c'.needCRLF = (c.remaining - out.length == 0))
    (htotal : c'.total = c.total + out.length) (hd : c'.decodedLen = c.decodedLen) (hdone : c'.done = c.done)
    (herr : c'.err = none) : Follows c (.ret out none c') := by
  have hpos : 0 < out.length := length_pos_iff.2 hne
  have hgoing : c'.done = false := hdone.trans (hf.bytes hrem).2
  refine .bytes ⟨herr, hok, fun h => ⟨?_, hgoing⟩, fun _ => hgoing⟩ ?_ (fun payload after => ?_)
    (cuts_after_bytes hrem hpend hne hlen hrem' hcrlf htotal hd)
  · rw [hcrlf, beq_eq_false_iff_ne]
    omega
  · rw [hpend, length_append]
    omega
  · constructor
    · rintro ⟨hahead, hsum⟩
      obtain ⟨more, rfl, hmore⟩ := (ahead_after_bytes hrem hpend hlen hrem' hcrlf).1 hahead
      refine ⟨more, rfl, hmore, fun n hn => ?_⟩
      have := hsum n (hd ▸ hn)
      rw [length_append] at this
      omega
    · rintro ⟨more, rfl, hmore, hsum⟩
      refine ⟨(ahead_after_bytes hrem hpend hlen hrem' hcrlf).2 ⟨more, rfl, hmore⟩, fun n hn => ?_⟩
      have := hsum n (hd.trans hn)
      rw [length_append]
      omega

theorem payload_follows (hm : 0 < m) (hf : Fine c) (hrem : 0 < c.remaining) : Follows c (turnPayload m c) := by
  unfold turnPayload
  obtain ⟨out, eof, r, hread⟩ : ∃ out eof r, c.r.read bufioSize (min m c.remaining) = (out, eof, r) := ⟨_, _, _, rfl⟩
  have hspec := Buffered.read_spec bufioSize_pos (by omega) hf.ok hread
  have hlen : out.length ≤ c.remaining := hspec.length.trans (Nat.min_le_right _ _)
  rw [hread]
  cases out with
  | nil =>
    obtain ⟨hnil, rfl⟩ := hspec.none rfl
    refine follows_fail .eof fun payload after h => ?_
    obtain ⟨body, rest, more, hsplit, -⟩ := (ahead_bytes hrem).1 h.ahead
    rw [hnil] at hsplit
    simp at hsplit
  | cons x xs =>
    have hne : x :: xs ≠ [] := by simp
    have hcrlf := (hf.bytes hrem).1
    cases eof with
    | true =>
      obtain ⟨hbig, hend⟩ := hspec.early rfl hne
      have hpend : c.r.pending = x :: xs := by rw [hspec.split, hend, append_nil]
      refine .cut rfl ?_ fun payload after h => ?_
      · rw [CutsFrom, if_pos hrem, hpend]
        exact .inl ⟨hbig.trans (Nat.min_le_right _ _), hne, hlen⟩
      · obtain ⟨body, rest, more, hsplit, hbody, -⟩ := (ahead_bytes hrem).1 h.ahead
        have hl := congrArg List.length (hpend.symm.trans hsplit)
        rw [length_append, length_cons (a := 13)] at hl
        omega
    | false => exact follows_bytes hf hrem hspec.ok hspec.split hne hlen rfl (by simp [hcrlf]) rfl rfl rfl rfl

theorem ahead_crlf (hrem : c.remaining = 0) (hc : c.needCRLF = true) :
    Ahead c payload after ↔ ∃ rest, c.r.pending = 13 :: 10 :: rest ∧ Frames rest payload after := by
  rw [Ahead, if_neg (by omega), if_pos hc]

theorem ahead_done (hrem : c.remaining = 0) (hc : c.needCRLF = false) (hd : c.done = true) :
    Ahead c payload after ↔ payload = [] ∧ after = c.r.pending := by
  rw [Ahead, if_neg (by omega), if_neg (by simp [hc]), if_pos hd]

theorem ahead_header (hrem : c.remaining = 0) (hc : c.needCRLF = false) (hd : c.done = false) :
    Ahead c payload after ↔ Frames c.r.pending payload after := by
  rw [Ahead, if_neg (by omega), if_neg (by simp [hc]), if_neg (by simp [hd])]

theorem crlf_follows (hf : Fine c) (hrem : c.remaining = 0) (hc : c.needCRLF = true) : Follows c (turnCRLF c) := by
  unfold turnCRLF
  obtain ⟨o, r, hread⟩ : ∃ o r, c.r.readFull bufioSize 2 2 = (o, r) := ⟨_, _, rfl⟩
  obtain ⟨hok, hfill⟩ := Buffered.readFull_spec bufioSize_pos (Nat.le_refl 2) hf.ok hread
  have hd := hf.crlf hc
  rw [hread]
  cases o with
  | none =>
    refine follows_fail .eof fun payload after h => ?_
    obtain ⟨rest, hrest, -⟩ := (ahead_crlf hrem hc).1 h.ahead
    have hlen : c.r.pending.length < 2 := hfill
    rw [hrest, length_cons, length_cons] at hlen
    omega
  | some crlf =>
    obtain ⟨htwo, hpend⟩ := hfill
    dsimp only
    split
    · next heq =>
      subst heq
      refine follows_again ⟨hf.err, hok, fun h => absurd hrem (Nat.ne_of_gt h), nofun⟩ ?_ hpend rfl rfl
        (fun payload after => ?_) fun h => ?_
      · simp [rank, hrem, hc, hd]
      · refine Iff.trans ?_ (ahead_header (c := { c with r, needCRLF := false }) hrem rfl hd).symm
        rw [ahead_crlf hrem hc, hpend]
        simp
      · simp only [CutsFrom, hrem, Nat.lt_irrefl, if_false, hd, Bool.false_eq_true] at h
        rw [CutsFrom, if_neg (by omega), if_pos hc, hpend]
        exact ⟨_, rfl, h⟩
    · next hne =>
      refine follows_fail .delimiter fun payload after h => ?_
      obtain ⟨rest, hrest, -⟩ := (ahead_crlf hrem hc).1 h.ahead
      have hsplit : crlf ++ r.pending = [13, 10] ++ rest := hpend.symm.trans hrest
      exact hne (append_inj hsplit htwo).1

theorem done_follows (hrem : c.remaining = 0) (hc : c.needCRLF = false) (hd : c.done = true) : Follows c (turnDone c) := by
  unfold turnDone
  split
  · next hne =>
    refine follows_fail .mismatch fun payload after h => ?_
    obtain ⟨rfl, -⟩ := (ahead_done hrem hc hd).1 h.ahead
    obtain ⟨n, hn, hne⟩ := (Option.any_eq_true ..).1 hne
    have := h.length n hn
    simp only [length_nil, Nat.add_zero] at this
    simp [this] at hne
  · next heq =>
    refine .finish ⟨(ahead_done hrem hc hd).2 ⟨rfl, rfl⟩, fun n hn => ?_⟩
    by_contra hne
    refine heq ((Option.any_eq_true ..).2 ⟨n, hn, ?_⟩)
    simpa using fun h : n = c.total => hne h.symm

/-- The grammar as the decoder goes through it. -/
theorem frames_iff {s : Bytes} : Frames s payload after ↔ ∃ line rest, takeLine maxChunkHeader [] s = .ok (line, rest) ∧
    ((parseChunkHeader line = .ok 0 ∧ payload = [] ∧ takeTrailers (maxTrailerBytes + 1) maxTrailerBytes rest = .ok after) ∨
      ∃ body rest' more, parseChunkHeader line = .ok body.length ∧ body ≠ [] ∧ rest = body ++ 13 :: 10 :: rest' ∧
        Frames rest' more after ∧ payload = body ++ more) := by
  constructor
  · intro h
    cases h with
    | last hl hz ht =>
      exact ⟨_, _, takeLine_eq.2 ⟨_, hl, rfl⟩, .inl ⟨hz, rfl, (takeTrailers_eq (Nat.lt_succ_self _)).2 ⟨_, ht, rfl⟩⟩⟩
    | chunk hl hs hb hr => exact ⟨_, _, takeLine_eq.2 ⟨_, hl, rfl⟩, .inr ⟨_, _, _, hs, hb, rfl, hr, rfl⟩⟩
  · rintro ⟨line, rest, hline, h⟩
    obtain ⟨head, hl, rfl⟩ := takeLine_eq.1 hline
    rcases h with ⟨hz, rfl, ht⟩ | ⟨body, rest', more, hs, hb, rfl, hr, rfl⟩
    · obtain ⟨tr, htr, rfl⟩ := (takeTrailers_eq (Nat.lt_succ_self _)).1 ht
      exact .last hl hz htr
    · exact .chunk hl hs hb hr

theorem header_follows (hf : Fine c) (hrem : c.remaining = 0) (hc : c.needCRLF = false) (hd : c.done = false) :
    Follows c (turnHeader c) := by
  unfold turnHeader
  obtain ⟨o, r, hread⟩ : ∃ o r, readChunkLine maxChunkHeader [] c.r = (o, r) := ⟨_, _, rfl⟩
  obtain ⟨hok, htake⟩ := readChunkLine_spec maxChunkHeader hf.ok hread
  rw [hread]
  cases o with
  | error e =>
    refine follows_fail e fun payload after h => ?_
    obtain ⟨line, rest, hline, -⟩ := frames_iff.1 ((ahead_header hrem hc hd).1 h.ahead)
    rw [htake] at hline
    cases hline
  | ok line =>
    obtain ⟨head, hl, hpend⟩ := takeLine_eq.1 htake
    have hframes : ∀ payload after, Ahead c payload after ↔ (parseChunkHeader line = .ok 0 ∧ payload = [] ∧
            takeTrailers (maxTrailerBytes + 1) maxTrailerBytes r.pending = .ok after) ∨
          ∃ body rest' more, parseChunkHeader line = .ok body.length ∧ body ≠ [] ∧
            r.pending = body ++ 13 :: 10 :: rest' ∧ Frames rest' more after ∧ payload = body ++ more := by
      intro payload after
      rw [ahead_header hrem hc hd, frames_iff, htake]
      constructor
      · rintro ⟨_, _, ⟨rfl, rfl⟩, h⟩
        exact h
      · exact fun h => ⟨line, r.pending, rfl, h⟩
    dsimp only
    split
    · next e he =>
      refine follows_fail e fun payload after h => ?_
      rcases (hframes _ _).1 h.ahead with ⟨hz, -⟩ | ⟨body, rest', more, hs, -⟩
      · rw [he] at hz; cases hz
      · rw [he] at hs; cases hs
    · next hz =>
      obtain ⟨o, trailer, r₁, htr⟩ :
          ∃ o trailer r₁, readTrailers (maxTrailerBytes + 1) maxTrailerBytes c.trailer r = (o, trailer, r₁) := ⟨_, _, _, rfl⟩
      obtain ⟨hok₁, htrailers⟩ := readTrailers_spec hok htr
      have hlast : ∀ payload after, Ahead c payload after ↔
          payload = [] ∧ takeTrailers (maxTrailerBytes + 1) maxTrailerBytes r.pending = .ok after := by
        intro payload after
        rw [hframes]
        constructor
        · rintro (h | ⟨body, rest', more, hs, hb, -⟩)
          · exact h.2
          · rw [hz, Except.ok.injEq] at hs
            exact absurd (length_eq_zero_iff.1 hs.symm) hb
        · exact fun h => .inl ⟨hz, h⟩
      rw [htr]
      cases o with
      | error e =>
        refine follows_fail e fun payload after h => ?_
        have h' := ((hlast _ _).1 h.ahead).2
        rw [htrailers] at h'
        cases h'
      | ok u =>
        obtain ⟨tr, -, hsplit⟩ := (takeTrailers_eq (Nat.lt_succ_self _)).1 htrailers
        have hbehind : c.r.pending = head ++ tr ++ r₁.pending := by rw [hpend, hsplit, append_assoc]
        refine follows_again ⟨hf.err, hok₁, fun h => absurd hrem (Nat.ne_of_gt h), fun h => ?_⟩ ?_ hbehind rfl rfl
          (fun payload after => ?_) fun h => ?_
        · rw [hc] at h
          cases h
        · simp [rank, hrem, hc, hd]
        · refine Iff.trans ?_ (ahead_done (c := { c with r := r₁, trailer, done := true }) hrem hc rfl).symm
          rw [hlast, htrailers, Except.map, Except.ok.injEq, eq_comm (a := after)]
        · simp [CutsFrom, hrem, hc] at h
    · next n hn =>
      have hbytes : ∀ payload after, Ahead c payload after ↔ Ahead { c with r, remaining := n + 1 } payload after := by
        intro payload after
        rw [hframes, ahead_bytes (Nat.succ_pos n)]
        constructor
        · rintro (⟨hz, -⟩ | ⟨body, rest, more, hs, -, hpend, hfr, rfl⟩)
          · rw [hn] at hz; cases hz
          · rw [hn, Except.ok.injEq] at hs
            exact ⟨body, rest, more, hpend, hs.symm, hfr, rfl⟩
        · rintro ⟨body, rest, more, hpend, hlen, hfr, rfl⟩
          exact .inr ⟨body, rest, more, by rw [hn]; exact congrArg _ hlen.symm,
            length_pos_iff.1 (by rw [hlen]; exact Nat.succ_pos n), hpend, hfr, rfl⟩
      split
      · next hover =>
        refine follows_fail .exceeds fun payload after h => ?_
        obtain ⟨body, rest, more, -, hlen, -, rfl⟩ := (ahead_bytes (Nat.succ_pos n)).1 ((hbytes _ _).1 h.ahead)
        obtain ⟨d, hd', hlt⟩ := (Option.any_eq_true ..).1 hover
        have := h.length d hd'
        rw [length_append] at this
        simp only [decide_eq_true_eq] at hlt hlen
        omega
      · next hfit =>
        have hfit' : ∀ d, c.decodedLen = some d → c.total + (n + 1) ≤ d := by
          intro d hd'
          by_contra hlt
          exact hfit ((Option.any_eq_true ..).2 ⟨d, hd', by simpa using hlt⟩)
        refine follows_again ⟨hf.err, hok, fun _ => ⟨hc, hd⟩, fun h => ?_⟩ ?_ hpend rfl rfl hbytes fun h => ?_
        · rw [hc] at h
          cases h
        · simp [rank, hrem, hc, hd]
        · simp only [CutsFrom, hrem, hc, hd, Nat.lt_irrefl, if_false, Bool.false_eq_true]
          rw [hpend]
          rw [CutsFrom, if_pos (Nat.succ_pos n)] at h
          rcases h with ⟨hbig, hne, hlen⟩ | ⟨body, rest, hrest, hlen, hcut⟩
          · exact .here hl hn hfit' hbig hne hlen
          · simp only at hrest hlen hcut
            rw [Nat.succ_eq_add_one, ← hlen] at hn
            rw [← hlen] at hfit' hcut
            rw [hrest]
            exact .chunk hl hn (length_pos_iff.1 (by omega)) hfit' hcut

theorem turn_follows (hm : 0 < m) (hf : Fine c) : Follows c (turn m c) := by
  unfold turn
  rw [hf.err]
  dsimp only
  split
  · next hrem => exact payload_follows hm hf hrem
  · next hrem =>
    have hz : c.remaining = 0 := by omega
    split
    · next hc => exact crlf_follows hf hz hc
    · next hc =>
      have hc := Bool.eq_false_iff.2 hc
      split
      · next hd => exact done_follows hz hc hd
      · next hd => exact header_follows hf hz hc (Bool.eq_false_iff.2 hd)

end Pgvs3.Ingest
