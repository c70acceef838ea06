import Pgvs3.Ingest.ChunkedTurns
/-!
# Reading a chunked body to its end

A read takes as many turns as it needs (`read_follows`), and every run of reads ends
(`drain_total`): with `io.EOF` for a stream of the grammar, and for some way of reading also for a
stream that is cut (`drain_cut`).
-/

namespace Pgvs3.Ingest

open Data (Buffered)
open Data.Buffered (slow)
open List Option

variable {c c' : ChunkedBody} {payload after : Bytes} {m : Nat} {sizes : Nat → Nat}

variable {d : ChunkedBody} {err : Option BodyError} {out part : Bytes} {fuel fuel' total : Nat} {e : BodyError} {p : Bytes × BodyError}

/-! ## One read -/

theorem Follows.back (h : Follows c (.again c')) (h' : Follows c' (.ret out err d)) : Follows c (.ret out err d) := by
  cases h with
  | again hf hr hs ha hc =>
    cases h' with
    | bytes hf' hs' ha' hc' =>
      exact .bytes hf' (Nat.lt_of_lt_of_le hs' hs) (fun payload after => (ha _ _).trans (ha' _ _)) fun h => hc (hc' h)
    | cut he hc' ha' => exact .cut he (hc hc') fun payload after h => ha' _ _ ((ha _ _).1 h)
    | finish ha' => exact .finish ((ha _ _).2 ha')
    | error he ha' => exact .error he fun payload after h => ha' _ _ ((ha _ _).1 h)

theorem rank_lt (c : ChunkedBody) : rank c < 4 := by
  unfold rank
  split
  · decide
  · split
    · decide
    · split <;> decide

theorem Follows.rank_lt (h : Follows c (.again c')) : rank c' < rank c := by
  cases h with
  | again hf hr hs ha hc => exact hr

theorem Follows.fine (h : Follows c (.again c')) : Fine c' := by
  cases h with
  | again hf hr hs ha hc => exact hf

section

variable (hm : 0 < m)
include hm

theorem turns_follows (hf : Fine c) (hr : rank c < fuel)
    (h : turns m fuel c = (out, err, d)) : Follows c (.ret out err d) := by
  induction fuel generalizing c with
  | zero => omega
  | succ fuel ih =>
    rw [turns] at h
    have hturn := turn_follows hm hf
    cases ht : turn m c with
    | ret out' err' c' =>
      rw [ht] at h hturn
      cases h
      exact hturn
    | again c' =>
      rw [ht] at h hturn
      have := hturn.rank_lt
      exact hturn.back (ih hturn.fine (by omega) h)

/-- The fuel of `read` is enough. -/
theorem turns_stable (hf : Fine c) (hr : rank c < fuel) (hr' : rank c < fuel') : turns m fuel c = turns m fuel' c := by
  induction fuel generalizing c fuel' with
  | zero => omega
  | succ fuel ih =>
    cases fuel' with
    | zero => omega
    | succ fuel' =>
      rw [turns, turns]
      have hturn := turn_follows hm hf
      cases ht : turn m c with
      | ret out err d => rfl
      | again c' =>
        rw [ht] at hturn
        have := hturn.rank_lt
        exact ih hturn.fine (by omega) (by omega)

theorem read_follows (hf : Fine c) (h : c.read m = (out, err, d)) : Follows c (.ret out err d) := by
  rw [ChunkedBody.read, if_neg (by omega)] at h
  exact turns_follows hm hf (rank_lt c) h

theorem read_again (hf : Fine c) (h : turn m c = .again c') : c.read m = c'.read m := by
  have hturn := turn_follows hm hf
  rw [h] at hturn
  have h₁ : turns m 4 c = turns m 3 c' := by rw [turns, h]
  have h₂ := hturn.rank_lt
  have h₃ := rank_lt c
  rw [ChunkedBody.read, ChunkedBody.read, if_neg (by omega), if_neg (by omega), h₁]
  exact turns_stable hm hturn.fine (by omega) (rank_lt c')

theorem read_ret (h : turn m c = .ret out err c') : c.read m = (out, err, c') := by
  rw [ChunkedBody.read, if_neg (by omega), turns, h]

theorem read_err (h : c.err = some e) : c.read m = ([], some e, c) :=
  read_ret hm (by rw [turn, h])

end

/-! ## A run of reads -/

/-- The caller does not go on with empty buffers for ever. -/
def Keeps (sizes : Nat → Nat) : Prop := ∀ i, ∃ j, i ≤ j ∧ 0 < sizes j

theorem Keeps.tail (h : Keeps sizes) : Keeps fun i => sizes (i + 1) := by
  intro i
  obtain ⟨j, hij, hj⟩ := h (i + 1)
  obtain ⟨k, rfl⟩ : ∃ k, j = k + 1 := ⟨j - 1, by omega⟩
  exact ⟨k, by omega, hj⟩

theorem drain_mono {k : Nat} (h : drain fuel sizes c = some p) : drain (fuel + k) sizes c = some p := by
  induction fuel generalizing c sizes p with
  | zero => cases h
  | succ fuel ih =>
    rw [Nat.succ_add]
    rw [drain] at h ⊢
    obtain ⟨out, err, d, hread⟩ : ∃ out err d, c.read (sizes 0) = (out, err, d) := ⟨_, _, _, rfl⟩
    rw [hread] at h ⊢
    cases err with
    | some e => exact h
    | none =>
      obtain ⟨q, hq, rfl⟩ := map_eq_some_iff.1 h
      exact map_eq_some_iff.2 ⟨q, ih hq, rfl⟩

theorem drain_unique {q : Bytes × BodyError} (h : drain fuel sizes c = some p) (h' : drain fuel' sizes c = some q) : p = q := by
  have h₁ := drain_mono (k := fuel') h
  have h₂ := drain_mono (k := fuel) h'
  rw [Nat.add_comm, h₁] at h₂
  exact Option.some.inj h₂

theorem drain_none (hread : c.read (sizes 0) = (out, none, c')) :
    drain (fuel + 1) sizes c = (drain fuel (fun i => sizes (i + 1)) c').map fun p => (out ++ p.1, p.2) := by
  rw [drain, hread]

theorem drain_some (hread : c.read (sizes 0) = (out, some e, c')) : drain (fuel + 1) sizes c = some (out, e) := by
  rw [drain, hread]

/-- What a completed run says about the stream. -/
inductive Ends (c : ChunkedBody) : Bytes → BodyError → Prop
  | accepted {out after : Bytes} (h : Accepts c out after) : Ends c out .eof
  | cut {out : Bytes} (hc : CutsFrom c) (h : ∀ payload after, ¬ Accepts c payload after) : Ends c out .eof
  | error {out : Bytes} {e : BodyError} (he : e ≠ .eof) (h : ∀ payload after, ¬ Accepts c payload after) : Ends c out e

theorem Ends.back {out' : Bytes} (ha : ∀ payload after, Accepts c payload after ↔ ∃ more, payload = out ++ more ∧ Accepts c' more after)
    (hc : CutsFrom c' → CutsFrom c) (h : Ends c' out' e) : Ends c (out ++ out') e := by
  have hnone : (∀ payload after, ¬ Accepts c' payload after) → ∀ payload after, ¬ Accepts c payload after := by
    intro h payload after hacc
    obtain ⟨more, -, hmore⟩ := (ha _ _).1 hacc
    exact h _ _ hmore
  cases h with
  | accepted h => exact .accepted ((ha _ _).2 ⟨_, rfl, h⟩)
  | cut hcut h => exact .cut (hc hcut) (hnone h)
  | error he h => exact .error he (hnone h)

theorem drain_err {e' : BodyError} (h : c.err = some e) (hd : drain fuel sizes c = some (out, e')) : e' = e := by
  induction fuel generalizing sizes out with
  | zero => cases hd
  | succ fuel ih =>
    by_cases hm : sizes 0 = 0
    · rw [drain_none (show c.read (sizes 0) = ([], none, c) by rw [ChunkedBody.read, if_pos hm])] at hd
      obtain ⟨p, hp, hpair⟩ := map_eq_some_iff.1 hd
      cases hpair
      exact ih hp
    · rw [drain_some (read_err (by omega) h)] at hd
      cases hd
      rfl

theorem drain_ends (hf : Fine c) (h : drain fuel sizes c = some (out, e)) :
    Ends c out e := by
  induction fuel generalizing c sizes out with
  | zero => cases h
  | succ fuel ih =>
    by_cases hm : sizes 0 = 0
    · rw [drain_none (show c.read (sizes 0) = ([], none, c) by rw [ChunkedBody.read, if_pos hm])] at h
      obtain ⟨p, hp, hpair⟩ := map_eq_some_iff.1 h
      cases hpair
      exact ih hf hp
    · obtain ⟨o, err, d, hread⟩ : ∃ o err d, c.read (sizes 0) = (o, err, d) := ⟨_, _, _, rfl⟩
      have hstep := read_follows (by omega) hf hread
      cases hstep with
      | bytes hf' hs ha hc =>
        rw [drain_none hread] at h
        obtain ⟨p, hp, hpair⟩ := map_eq_some_iff.1 h
        cases hpair
        exact (ih hf' hp).back ha hc
      | cut he hc ha =>
        rw [drain_none hread] at h
        obtain ⟨p, hp, hpair⟩ := map_eq_some_iff.1 h
        cases hpair
        rw [drain_err he hp]
        exact .cut hc ha
      | finish ha =>
        rw [drain_some hread] at h
        cases h
        exact .accepted ha
      | error he ha =>
        rw [drain_some hread] at h
        cases h
        exact .error he ha

/-- It is enough to look at runs that start with a read that is not empty. -/
theorem drain_wait (hk : Keeps sizes) (h : ∀ sizes, Keeps sizes → 0 < sizes 0 → ∃ fuel p, drain fuel sizes c = some p) :
    ∃ fuel p, drain fuel sizes c = some p := by
  obtain ⟨j, -, hj⟩ := hk 0
  induction j generalizing sizes with
  | zero => exact h sizes hk hj
  | succ j ih =>
    by_cases hm : sizes 0 = 0
    · obtain ⟨fuel, p, hp⟩ := ih hk.tail hj
      exact ⟨fuel + 1, _, by rw [drain_none (show c.read (sizes 0) = ([], none, c) by rw [ChunkedBody.read, if_pos hm]), hp]; rfl⟩
    · exact h sizes hk (by omega)

theorem drain_total (hf : Fine c) (hk : Keeps sizes) : ∃ fuel p, drain fuel sizes c = some p := by
  induction hn : c.r.pending.length using Nat.strong_induction_on generalizing c sizes with
  | _ n ih =>
    refine drain_wait hk fun sizes hk hm => ?_
    obtain ⟨out, err, d, hread⟩ : ∃ out err d, c.read (sizes 0) = (out, err, d) := ⟨_, _, _, rfl⟩
    have hstep := read_follows hm hf hread
    cases hstep with
    | bytes hf' hs ha hc =>
      obtain ⟨fuel, p, hp⟩ := ih _ (hn ▸ hs) hf' hk.tail rfl
      exact ⟨fuel + 1, _, by rw [drain_none hread, hp]; rfl⟩
    | cut he hc ha =>
      obtain ⟨fuel, p, hp⟩ := drain_wait hk.tail fun sizes' _ hm' => ⟨1, _, drain_some (read_err hm' he)⟩
      exact ⟨fuel + 1, _, by rw [drain_none hread, hp]; rfl⟩
    | finish | error => exact ⟨1, _, drain_some hread⟩

/-! ## From the start of a stream -/

variable {declared : Option Nat} {s pre : Bytes} {script : List (Nat × Bool)}

theorem start_fine : Fine (.start declared ⟨s, script⟩) := ⟨rfl, nofun, fun h => absurd h (Nat.lt_irrefl 0), nofun⟩

theorem start_accepts : Accepts (.start declared ⟨s, script⟩) payload after ↔
    Frames s payload after ∧ ∀ n, declared = some n → payload.length = n := by
  have hahead : Ahead (.start declared ⟨s, script⟩) payload after ↔ Frames s payload after :=
    ahead_header rfl rfl rfl
  constructor
  · rintro ⟨ha, hl⟩
    exact ⟨hahead.1 ha, fun n hn => (Nat.zero_add _).symm.trans (hl n hn)⟩
  · rintro ⟨hf, hl⟩
    exact ⟨hahead.2 hf, fun n hn => (Nat.zero_add _).trans (hl n hn)⟩

theorem start_cuts : CutsFrom (.start declared ⟨s, script⟩) ↔ Cut declared 0 s := Iff.rfl

/-! ## A stream that is cut, one byte at a time -/

/-- The decoder is about to read a header line. -/
structure AtHeader (declared : Option Nat) (total : Nat) (r : Buffered UInt8) (c : ChunkedBody) : Prop where
  fine : Fine c
  r : c.r = r
  decodedLen : c.decodedLen = declared
  total : c.total = total
  remaining : c.remaining = 0
  needCRLF : c.needCRLF = false
  done : c.done = false

/-- With buffers of `m` bytes the body ends with `io.EOF`. -/
def EndsAt (m : Nat) (c : ChunkedBody) : Prop := ∃ fuel out, drain fuel (fun _ => m) c = some (out, .eof)

theorem endsAt_again (hm : 0 < m) (hf : Fine c) (h : turn m c = .again c') (he : EndsAt m c') : EndsAt m c := by
  obtain ⟨fuel, out, hd⟩ := he
  cases fuel with
  | zero => cases hd
  | succ fuel =>
    refine ⟨fuel + 1, out, ?_⟩
    rwa [drain, read_again hm hf h]

theorem endsAt_bytes (hm : 0 < m) (h : turn m c = .ret out none c') (he : EndsAt m c') : EndsAt m c := by
  obtain ⟨fuel, out', hd⟩ := he
  refine ⟨fuel + 1, out ++ out', ?_⟩
  rw [drain_none (read_ret hm h), hd]
  rfl

theorem endsAt_err (hm : 0 < m) (h : c.err = some .eof) : EndsAt m c := ⟨1, [], drain_some (read_err hm h)⟩

theorem slow_readChunkLine {room : Nat} {raw l : Bytes} (hl : (10 : UInt8) ∉ l) (hlen : l.length ≤ room) :
    readChunkLine room raw (slow (l ++ 10 :: pre) part) = (.ok (chomp (raw ++ l)), slow pre part) := by
  induction l generalizing room raw with
  | nil => rw [readChunkLine_eq, nil_append, Data.Buffered.slow_readByte bufioSize_pos, append_nil]; rfl
  | cons x l ih =>
    rw [mem_cons, not_or] at hl
    cases room with
    | zero => simp at hlen
    | succ room =>
      rw [readChunkLine_eq, cons_append, Data.Buffered.slow_readByte bufioSize_pos]
      dsimp only
      rw [if_neg (Ne.symm hl.1), ih hl.2 (by simpa using hlen)]
      simp

theorem turn_eq (h : c.err = none) : turn m c =
    if 0 < c.remaining then turnPayload m c
    else if c.needCRLF then turnCRLF c
    else if c.done then turnDone c
    else turnHeader c := by
  rw [turn, h]

theorem turn_slow_byte {x : UInt8} (hm : 0 < m) (hf : Fine c) (hpos : 0 < c.remaining)
    (hr : c.r = slow (x :: pre) part) : turn m c = .ret [x] none { c with
        r := slow pre part
        remaining := c.remaining - 1
        total := c.total + 1
        needCRLF := c.needCRLF || c.remaining - 1 == 0
        err := none } := by
  rw [turn_eq hf.err, if_pos hpos, turnPayload, hr, Data.Buffered.slow_read bufioSize_pos (by omega)]
  rfl

theorem turn_slow_end (hf : Fine c) (hp : part ≠ []) (hbig : bufioSize ≤ min m c.remaining)
    (hlen : part.length ≤ min m c.remaining) (hr : c.r = slow [] part) :
    ∃ c', turn m c = .ret part none c' ∧ c'.err = some .eof := by
  obtain ⟨hout, heof⟩ := Data.Buffered.slow_end hp hbig hlen
  obtain ⟨out, eof, r, hread⟩ : ∃ out eof r, (slow [] part).read bufioSize (min m c.remaining) = (out, eof, r) := ⟨_, _, _, rfl⟩
  rw [hread] at hout heof
  obtain rfl : out = part := hout
  obtain rfl : eof = true := heof
  have hpos : 0 < c.remaining := by
    have := bufioSize_pos
    omega
  obtain ⟨x, xs, rfl⟩ := exists_cons_of_ne_nil hp
  rw [turn_eq hf.err, if_pos hpos, turnPayload, hr, hread]
  exact ⟨_, rfl, rfl⟩

theorem turn_slow_crlf (hf : Fine c) (hrem : c.remaining = 0) (hc : c.needCRLF = true)
    (hr : c.r = slow (13 :: 10 :: pre) part) : turn m c = .again { c with r := slow pre part, needCRLF := false } := by
  rw [turn_eq hf.err, if_neg (by omega), if_pos hc, turnCRLF, hr, Data.Buffered.slow_readFull_two bufioSize_pos]
  rfl

theorem turn_slow_header {head line : Bytes} {n : Nat} (hl : Line maxChunkHeader head line)
    (hs : parseChunkHeader line = .ok n) (hn : 0 < n) (hd : ∀ d, declared = some d → total + n ≤ d)
    (h : AtHeader declared total (slow (head ++ pre) part) c) :
    turn m c = .again { c with r := slow pre part, remaining := n } := by
  obtain ⟨raw, rfl, hraw, hlen, rfl⟩ := hl
  obtain ⟨k, rfl⟩ : ∃ k, n = k + 1 := ⟨n - 1, by omega⟩
  have hline : readChunkLine maxChunkHeader [] c.r = (.ok (chomp raw), slow pre part) := by
    rw [h.r, append_assoc, singleton_append, slow_readChunkLine hraw hlen, nil_append]
  have hfit : ¬ c.decodedLen.any (· < c.total + (k + 1)) = true := by
    intro hover
    obtain ⟨d, hdec, hlt⟩ := (Option.any_eq_true ..).1 hover
    have := hd d (h.decodedLen.symm.trans hdec)
    rw [h.total, decide_eq_true_eq] at hlt
    omega
  rw [turn_eq h.fine.err, if_neg (by rw [h.remaining]; decide), if_neg (by simp [h.needCRLF]), if_neg (by simp [h.done]),
    turnHeader, hline]
  dsimp only
  rw [hs]
  exact if_neg hfit

theorem fine_of_again (hm : 0 < m) (hf : Fine c) (h : turn m c = .again c') : Fine c' := by
  have hstep := turn_follows hm hf
  rw [h] at hstep
  exact hstep.fine

theorem endsAt_body {body : Bytes} (hm : 0 < m) (hnext : ∀ c, AtHeader declared (total + body.length) (slow pre part) c → EndsAt m c)
    (hf : Fine c) (hr : c.r = slow (body ++ 13 :: 10 :: pre) part) (hd : c.decodedLen = declared) (ht : c.total = total)
    (hrem : c.remaining = body.length) (hcrlf : body = [] → c.needCRLF = true) : EndsAt m c := by
  induction body generalizing c total with
  | nil =>
    have hturn := turn_slow_crlf (m := m) hf hrem (hcrlf rfl) hr
    exact endsAt_again hm hf hturn (hnext _ ⟨fine_of_again hm hf hturn, rfl, hd, ht, hrem, rfl, hf.crlf (hcrlf rfl)⟩)
  | cons x body ih =>
    have hpos : 0 < c.remaining := by rw [hrem]; exact Nat.succ_pos _
    have hturn := turn_slow_byte hm hf hpos hr
    have hstep := turn_follows hm hf
    rw [hturn] at hstep
    have hrem' : c.remaining - 1 = body.length := by rw [hrem]; rfl
    have hnext' : ∀ c, AtHeader declared (total + 1 + body.length) (slow pre part) c → EndsAt m c := by
      intro d hd
      refine hnext d ?_
      rwa [length_cons, Nat.add_comm body.length, ← Nat.add_assoc]
    refine endsAt_bytes hm hturn (ih hnext' ?_ rfl hd (congrArg (· + 1) ht) hrem' ?_)
    · cases hstep with
      | bytes hf' => exact hf'
      | cut he => cases he
    · intro hnil
      simp [hrem', hnil]

/-- A stream that is cut can be read so that it ends with `io.EOF`. -/
theorem Cut.endsAt (h : Cut declared total s) (hm : bufioSize ≤ m) (hlen : s.length ≤ m) :
    ∃ pre part, s = pre ++ part ∧ ∀ c, AtHeader declared total (slow pre part) c → EndsAt m c := by
  have hpos : 0 < m := Nat.lt_of_lt_of_le bufioSize_pos hm
  induction h with
  | @here total n head line part hl hs hd hn hp hle =>
    refine ⟨head, part, rfl, fun c hc => ?_⟩
    have hturn : turn m c = .again { c with r := slow [] part, remaining := n } := by
      refine turn_slow_header hl hs (Nat.lt_of_lt_of_le bufioSize_pos hn) hd ?_
      rwa [append_nil]
    rw [length_append] at hlen
    have hbig : bufioSize ≤ min m n := by omega
    have hfit : part.length ≤ min m n := by omega
    obtain ⟨c', hturn', herr⟩ := turn_slow_end (fine_of_again hpos hc.fine hturn) hp hbig hfit rfl
    exact endsAt_again hpos hc.fine hturn (endsAt_bytes hpos hturn' (endsAt_err hpos herr))
  | @chunk total head line body rest hl hs hb hd hr ih =>
    simp only [length_append, length_cons] at hlen
    obtain ⟨pre, part, rfl, hnext⟩ := ih (by omega)
    refine ⟨head ++ (body ++ 13 :: 10 :: pre), part, by simp, fun c hc => ?_⟩
    have hturn := turn_slow_header (m := m) hl hs (length_pos_iff.2 hb) hd hc
    exact endsAt_again hpos hc.fine hturn (endsAt_body hpos hnext (fine_of_again hpos hc.fine hturn) rfl hc.decodedLen
      hc.total rfl fun hnil => absurd hnil hb)

/-! ## Exactness -/

/-- The stream is accepted when it is well formed, and then the payload was delivered. -/
def Correct (declared : Option Nat) (s out : Bytes) (e : BodyError) : Prop :=
  (e = .eof ↔ ∃ payload, WellFormed declared s payload) ∧ ∀ payload, WellFormed declared s payload → out = payload

/-- However the stream comes and with whatever buffers it is read. -/
def Exact (declared : Option Nat) (s : Bytes) : Prop :=
  ∀ script sizes, Keeps sizes → ∃ fuel out e, drain fuel sizes (.start declared ⟨s, script⟩) = some (out, e) ∧ Correct declared s out e

/-- Something comes after the trailer section. -/
def Trailing (declared : Option Nat) (s : Bytes) : Prop :=
  ∃ payload after, Frames s payload after ∧ (∀ n, declared = some n → payload.length = n) ∧ after ≠ []

theorem not_exact_of_cut (h : Cut declared 0 s) : ¬ Exact declared s := by
  intro hex
  obtain ⟨pre, part, rfl, hends⟩ := h.endsAt (m := bufioSize + s.length) (by omega) (by omega)
  have hstart : AtHeader declared 0 (slow pre part)
      (.start declared ⟨pre ++ part, List.replicate pre.length (1, false) ++ [(part.length, true)]⟩) :=
    ⟨start_fine, rfl, rfl, rfl, rfl, rfl, rfl⟩
  obtain ⟨fuel', out', hd'⟩ := hends _ hstart
  obtain ⟨fuel, out, e, hd, hcorrect⟩ := hex (List.replicate pre.length (1, false) ++ [(part.length, true)]) _
    fun i => ⟨i, Nat.le_refl i, show 0 < bufioSize + (pre ++ part).length from Nat.add_pos_left bufioSize_pos _⟩
  cases drain_unique hd hd'
  obtain ⟨payload, hwf⟩ := hcorrect.1.1 rfl
  exact h.not_frames hwf.1

theorem not_exact_of_trailing (h : Trailing declared s) : ¬ Exact declared s := by
  intro hex
  obtain ⟨payload, after, hframes, hlen, hne⟩ := h
  obtain ⟨fuel, out, e, hd, hcorrect⟩ := hex [] (fun _ => 1) fun i => ⟨i, Nat.le_refl i, Nat.one_pos⟩
  have hacc : Accepts (.start declared ⟨s, []⟩) payload after := start_accepts.2 ⟨hframes, hlen⟩
  cases drain_ends start_fine hd with
  | accepted _ =>
    obtain ⟨payload', hwf⟩ := hcorrect.1.1 rfl
    exact hne (hframes.unique hwf.1).2
  | cut _ hnone | error _ hnone => exact hnone _ _ hacc

/-- The decoder is exact for a stream exactly if nothing comes after its trailer section and it does
not end within the bytes of a chunk of 64 KiB or more. -/
theorem chunked_exact_iff (declared : Option Nat) (s : Bytes) : Exact declared s ↔ ¬ Trailing declared s ∧ ¬ Cut declared 0 s := by
  constructor
  · exact fun h => ⟨fun ht => not_exact_of_trailing ht h, fun hc => not_exact_of_cut hc h⟩
  · rintro ⟨htrail, hcut⟩ script sizes hk
    obtain ⟨fuel, ⟨out, e⟩, hd⟩ := drain_total start_fine hk
    refine ⟨fuel, out, e, hd, ?_⟩
    have hnone : (∀ payload after, ¬ Accepts (.start declared ⟨s, script⟩) payload after) → ∀ payload, ¬ WellFormed declared s payload :=
      fun h payload hwf => h _ _ (start_accepts.2 hwf)
    cases drain_ends start_fine hd with
    | @accepted after hacc =>
      obtain ⟨hframes, hlen⟩ := start_accepts.1 hacc
      obtain rfl : after = [] := by
        by_contra hne
        exact htrail ⟨out, after, hframes, hlen, hne⟩
      exact ⟨⟨fun _ => ⟨out, hframes, hlen⟩, fun _ => rfl⟩, fun payload hwf => (hframes.unique hwf.1).1⟩
    | cut hc _ => exact absurd (start_cuts.1 hc) hcut
    | error he h =>
      exact ⟨⟨fun h' => absurd h' he, fun ⟨payload, hwf⟩ => absurd hwf (hnone h payload)⟩,
        fun payload hwf => absurd hwf (hnone h payload)⟩

/-- One byte of a chunk of 64 KiB, after its header line `10000`. -/
theorem chunked_truncated : ¬ ∀ declared s, Exact declared s := by
  intro h
  have hline : Line maxChunkHeader [49, 48, 48, 48, 48, 13, 10] [49, 48, 48, 48, 48] :=
    ⟨[49, 48, 48, 48, 48, 13], rfl, by decide, by decide, by decide⟩
  have hcut : Cut (some 65536) 0 ([49, 48, 48, 48, 48, 13, 10] ++ [65]) := by
    refine .here (n := 65536) hline (by decide +kernel) ?_ (by decide) (by decide) (by decide)
    intro d hd
    cases hd
    decide
  exact not_exact_of_cut hcut (h _ _)

end Pgvs3.Ingest
