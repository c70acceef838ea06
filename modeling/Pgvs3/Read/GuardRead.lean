import Pgvs3.Conc.Sessions
import Pgvs3.Read.Guard
/-!
# What a guarded read keeps

`Read.Sound` is what holds of a read in each phase as long as the rows that it has pinned stay:
`Read.Core` of the pieces and their answers, `Read.Counted` of the counter that decides when the
exporting transaction ends. `Moves` says how a step changes the sessions that the read uses and the
pins that it holds.
-/

namespace Pgvs3.Guard

open Codec (ChunkRow Piece RawRow getRange)
open List Option

/-! ## Pinned files -/

theorem mem_compact {α : Type} [DecidableEq α] {a : α} (l : List α) : a ∈ compact l ↔ a ∈ l := by
  induction l with
  | nil => rfl
  | cons b l ih =>
    cases l with
    | nil => rfl
    | cons c l =>
      rw [compact]
      split
      · next hbc => simp [ih, hbc]
      · rw [mem_cons, ih, ← mem_cons]

variable {p : Piece} {chunks' : List ChunkRow}

theorem pinKey_mem_pinKeys {pieces : List Piece} (hp : p ∈ pieces) : pinKey p.fileID ∈ pinKeys pieces := by
  rw [pinKeys, mem_compact, mem_insertionSort]
  exact mem_map_of_mem hp

def fileRows (chunks : List ChunkRow) (id : Int64) : List ChunkRow := chunks.filter (·.fileID == id)

theorem getRange_congr {chunks : List ChunkRow} (h : fileRows chunks p.fileID = fileRows chunks' p.fileID) :
    getRange chunks p = getRange chunks' p := by
  have hfile : ∀ cs : List ChunkRow, getRange cs p = getRange (fileRows cs p.fileID) p := by
    intro cs
    rw [getRange, getRange, fileRows, List.filter_filter]
    congr 1
    refine filter_congr fun r _ => ?_
    by_cases hr : r.fileID = p.fileID <;> simp [hr]
  rw [hfile chunks, h, ← hfile chunks']

/-! ## A read by itself -/

/-- The worker has stopped because nothing is left to claim, unless the read has failed. -/
def Worker.left : Worker → Bool
  | .leaving _ | .finished | .gaveUp false => true
  | _ => false

namespace Read

def held (rd : Read) : List Int32 :=
  match rd.phase with
  | .pinning _ got => got
  | .unpinning | .running => rd.keys
  | _ => []

structure Quiet (rd : Read) : Prop where
  workers : ∃ n : Nat, 0 < n ∧ rd.workers = List.replicate n .waiting ∧ rd.pending = n
  next : rd.next = 0
  answers : rd.answers = []
  failed : rd.failed = false
  snap : rd.snap = none
  ended : rd.ended = false

/-- The answers are those of the table as it was when the guard was acquired. -/
def Right (rd : Read) : Prop := ∀ x ∈ rd.answers, ∃ p, rd.pieces[x.1]? = some p ∧ x.2.Perm (getRange rd.base p)

structure Core (srv : Server) (chunks : List ChunkRow) (rd : Read) : Prop where
  pinned : rd.snap = none → srv.inRecovery = false ∧ rd.keys = pinKeys rd.pieces ∧
    ∀ p ∈ rd.pieces, fileRows chunks p.fileID = fileRows rd.base p.fileID
  exported : ∀ s, rd.snap = some s → s = rd.base ∧ rd.keys = []
  right : rd.Right
  covered : rd.failed = false → ∀ j < rd.next, j < rd.pieces.length → (∃ rows, (j, rows) ∈ rd.answers) ∨ ∃ c, .claimed c j ∈ rd.workers
  left : rd.failed = false → ∀ wk ∈ rd.workers, wk.left = true → rd.pieces.length < rd.next
  nonempty : rd.workers ≠ []

structure Counted (rd : Read) : Prop where
  count : rd.pending = rd.workers.countP Worker.unjoined
  pinned : rd.snap = none → rd.ended = false ∧ rd.conn ≠ none
  exported : rd.snap ≠ none → (rd.ended = true ↔ rd.pending = 0) ∧ (rd.conn = none ↔ rd.ended = true)

structure Over (rd : Read) : Prop where
  right : rd.Right
  complete : rd.failed = false → ∀ j < rd.pieces.length, ∃ rows, (j, rows) ∈ rd.answers

def Sound (srv : Server) (chunks : List ChunkRow) (rd : Read) : Prop :=
  match rd.phase with
  | .acquiring | .reacquiring => rd.Quiet ∧ rd.conn = none ∧ rd.keys = []
  | .pinning todo got => rd.Quiet ∧ rd.conn ≠ none ∧ rd.keys = [] ∧ srv.inRecovery = false ∧
      ∃ seen, pinKeys rd.pieces = seen ++ todo ∧ got.Sublist seen
  | .unpinning => rd.Quiet ∧ rd.conn ≠ none
  | .exporting => rd.Quiet ∧ rd.conn ≠ none ∧ rd.keys = []
  | .running => rd.Core srv chunks ∧ rd.Counted
  | .releasing => rd.Over ∧ rd.conn ≠ none ∧ ∀ i, rd.uses (some i) = none
  | .done err => rd.conn = none ∧ (∀ i, rd.uses (some i) = none) ∧ (err = false → rd.Over ∧ rd.failed = false)

variable {srv : Server} {chunks : List ChunkRow} {free : Int32 → Bool} {rd : Read}

theorem Quiet.uses (h : rd.Quiet) (i : Nat) : rd.uses (some i) = none := by
  obtain ⟨n, -, hw, -⟩ := h.workers
  simp only [Read.uses, hw, getElem?_replicate]
  split <;> rfl

variable {rd' : Read} {a : ReadAct} {op : SessionOp}

theorem Quiet.counted (h : rd.Quiet) (hconn : rd.conn ≠ none) (hw : rd'.workers = rd.workers) (hp : rd'.pending = rd.pending)
    (hc : rd'.conn = rd.conn) (he : rd'.ended = rd.ended) : rd'.Counted := by
  obtain ⟨n, hn, hwork, hpend⟩ := h.workers
  refine ⟨?_, fun _ => ⟨he.trans h.ended, hc ▸ hconn⟩, fun _ => ⟨?_, ?_⟩⟩
  · rw [hp, hw, hpend, hwork, countP_replicate]
    rfl
  · rw [he, h.ended, hp, hpend]
    simp
    omega
  · rw [he, h.ended, hc]
    simp [hconn]

/-! ### Workers -/

section Put

variable {i : Nat} {wk wk' : Worker}

theorem uses_put (rd : Read) (i : Nat) (wk : Worker) (hi : i < rd.workers.length) (slot : Slot) :
    (rd.put i wk).uses slot = if slot = some i then wk.conn else rd.uses slot := by
  cases slot with
  | none => rfl
  | some j =>
    by_cases hji : j = i
    · subst hji
      simp [Read.uses, put, hi]
    · have hne : i ≠ j := fun h => hji h.symm
      simp [Read.uses, put, getElem?_set_ne hne, hji]

theorem countP_put (hi : rd.workers[i]? = some wk) : ((rd.put i wk').workers.countP Worker.unjoined : Int) =
      rd.workers.countP Worker.unjoined - (if wk.unjoined then 1 else 0) + if wk'.unjoined then 1 else 0 := by
  obtain ⟨hlt, hget⟩ := List.getElem?_eq_some_iff.1 hi
  rw [put, countP_set hlt, hget]
  cases hu : wk.unjoined with
  | false => cases hu' : wk'.unjoined <;> simp
  | true =>
    have hpos : 0 < rd.workers.countP Worker.unjoined := countP_pos_iff.2 ⟨wk, mem_of_getElem? hi, hu⟩
    cases hu' : wk'.unjoined <;> simp <;> omega

/-- Worker `i` goes from `wk` to `wk'`; of the rest only the claims, the answers and the error may
change. -/
structure Puts (rd rd' : Read) (i : Nat) (wk wk' : Worker) : Prop where
  found : rd.workers[i]? = some wk
  workers : rd'.workers = (rd.put i wk').workers
  rest : { rd' with workers := rd.workers, next := rd.next, answers := rd.answers, failed := rd.failed } = rd

section Rest

variable (h : Puts rd rd' i wk wk')

include h

theorem Puts.phase : rd'.phase = rd.phase := (congrArg Read.phase h.rest :)

theorem Puts.conn : rd'.conn = rd.conn := (congrArg Read.conn h.rest :)

theorem Puts.ended : rd'.ended = rd.ended := (congrArg Read.ended h.rest :)

theorem Puts.snap : rd'.snap = rd.snap := (congrArg Read.snap h.rest :)

theorem Puts.pending : rd'.pending = rd.pending := (congrArg Read.pending h.rest :)

theorem Puts.held : rd'.held = rd.held := (congrArg Read.held h.rest :)

end Rest

theorem Counted.put (h : rd.Counted) (hput : Puts rd rd' i wk wk') (hu : wk'.unjoined = wk.unjoined) : rd'.Counted := by
  refine ⟨?_, ?_, ?_⟩
  · rw [hput.pending, hput.workers, countP_put hput.found, hu, h.count]
    omega
  · rw [hput.snap, hput.ended, hput.conn]
    exact h.pinned
  · rw [hput.snap, hput.ended, hput.pending, hput.conn]
    exact h.exported

/-- While a worker has not counted itself the exporting transaction lasts. -/
theorem Counted.open_of_unjoined (h : rd.Counted) (hwk : wk ∈ rd.workers) (hu : wk.unjoined = true) : rd.ended = false := by
  have hpos : 0 < rd.workers.countP Worker.unjoined := countP_pos_iff.2 ⟨wk, hwk, hu⟩
  cases hs : rd.snap with
  | none => exact (h.pinned hs).1
  | some s =>
    rw [← Bool.not_eq_true, ((h.exported (by simp [hs])).1), h.count]
    omega

theorem Core.put (h : rd.Core srv chunks) (hput : Puts rd rd' i wk wk') (hsub : ∀ x ∈ rd.answers, x ∈ rd'.answers)
    (hright : ∀ x ∈ rd'.answers, x ∈ rd.answers ∨ ∃ p, rd.pieces[x.1]? = some p ∧ x.2.Perm (getRange rd.base p))
    (hfail : rd'.failed = false → rd.failed = false) (hnext : rd.next ≤ rd'.next)
    (hnew : ∀ j < rd'.next, j < rd.pieces.length → j < rd.next ∨ ∃ c, wk' = .claimed c j)
    (hold : rd'.failed = false → ∀ c j, wk = .claimed c j → (∃ rows, (j, rows) ∈ rd'.answers) ∨ ∃ c, wk' = .claimed c j)
    (hleft : rd'.failed = false → wk'.left = true → rd.pieces.length < rd'.next) : rd'.Core srv chunks := by
  have hpieces : rd'.pieces = rd.pieces := (congrArg Read.pieces hput.rest :)
  have hkeys : rd'.keys = rd.keys := (congrArg Read.keys hput.rest :)
  have hbase : rd'.base = rd.base := (congrArg Read.base hput.rest :)
  have hi := hput.found
  have hw := hput.workers
  have hlt : i < rd.workers.length := (List.getElem?_eq_some_iff.1 hi).1
  have hmem : wk' ∈ rd'.workers := by
    rw [hw]
    exact mem_set hlt wk'
  refine ⟨?_, ?_, ?_, fun hf j hj hlen => ?_, fun hf x hx hxl => ?_, ?_⟩
  · rw [hput.snap, hkeys, hpieces, hbase]
    exact h.pinned
  · rw [hput.snap, hkeys, hbase]
    exact h.exported
  · intro x hx
    rw [hpieces, hbase]
    rcases hright x hx with hx | hx
    · exact h.right x hx
    · exact hx
  · rw [hpieces] at hlen
    rcases hnew j hj hlen with hj | ⟨c, hc⟩
    · rcases h.covered (hfail hf) j hj hlen with ⟨rows, hrows⟩ | ⟨c, hc⟩
      · exact .inl ⟨rows, hsub _ hrows⟩
      · -- the worker that has the piece is another one, or has it still, or has answered
        obtain ⟨k, hk⟩ := mem_iff_getElem?.1 hc
        by_cases hki : k = i
        · subst hki
          have hwk : wk = .claimed c j := Option.some.inj (hi.symm.trans hk)
          rcases hold hf c j hwk with hans | ⟨c', hc'⟩
          · exact .inl hans
          · exact .inr ⟨c', hc' ▸ hmem⟩
        · refine .inr ⟨c, ?_⟩
          rw [hw]
          exact mem_iff_getElem?.2 ⟨k, by rw [Read.put, getElem?_set_ne (Ne.symm hki), hk]⟩
    · exact .inr ⟨c, hc ▸ hmem⟩
  · rw [hpieces]
    rw [hw] at hx
    rcases mem_or_eq_of_mem_set hx with hx | rfl
    · exact Nat.lt_of_lt_of_le (h.left (hfail hf) x hx hxl) hnext
    · exact hleft hf hxl
  · have hlen : rd'.workers.length = rd.workers.length := by
      rw [hw]
      exact length_set
    intro hnil
    rw [hnil] at hlen
    exact h.nonempty (length_eq_zero_iff.1 hlen.symm)

theorem Core.moves (h : rd.Core srv chunks) (hi : rd.workers[i]? = some wk)
    (hno : ∀ c j, wk ≠ .claimed c j) (hleft : wk'.left = true → rd.failed = false → rd.pieces.length < rd.next) :
    (rd.put i wk').Core srv chunks :=
  h.put ⟨hi, rfl, rfl⟩ (fun _ hx => hx) (fun _ hx => .inl hx) id (le_rfl) (fun _ hj _ => .inl hj)
    (fun _ c j hwk => absurd hwk (hno c j)) fun hf hl => hleft hl hf

theorem Core.congr (h : rd.Core srv chunks) (hsame : rd'.pieces = rd.pieces ∧ rd'.keys = rd.keys ∧ rd'.snap = rd.snap ∧
    rd'.base = rd.base ∧ rd'.workers = rd.workers ∧ rd'.next = rd.next ∧ rd'.answers = rd.answers ∧ rd'.failed = rd.failed) :
    rd'.Core srv chunks := by
  obtain ⟨hp, hk, hs, hb, hw, hn, ha, hf⟩ := hsame
  refine ⟨?_, ?_, ?_, ?_, ?_, ?_⟩
  · rw [hs, hk, hp, hb]
    exact h.pinned
  · rw [hs, hb, hk]
    exact h.exported
  · rw [Right, ha, hp, hb]
    exact h.right
  · rw [hf, hn, hp, ha, hw]
    exact h.covered
  · rw [hf, hw, hp, hn]
    exact h.left
  · rw [hw]
    exact h.nonempty

theorem joined_same (rd : Read) : rd.joined.1.pieces = rd.pieces ∧ rd.joined.1.keys = rd.keys ∧ rd.joined.1.snap = rd.snap ∧
    rd.joined.1.base = rd.base ∧ rd.joined.1.workers = rd.workers ∧ rd.joined.1.next = rd.next ∧ rd.joined.1.answers = rd.answers ∧
    rd.joined.1.failed = rd.failed ∧ rd.joined.1.phase = rd.phase := by
  unfold joined endExport
  dsimp only
  split
  · split <;> exact ⟨rfl, rfl, rfl, rfl, rfl, rfl, rfl, rfl, rfl⟩
  · exact ⟨rfl, rfl, rfl, rfl, rfl, rfl, rfl, rfl, rfl⟩

/-- The last worker to count itself ends the exporting transaction. -/
theorem Counted.joined (h : rd.Counted) {rd₁ : Read} (hput : Puts rd rd₁ i wk wk') (hu : wk.unjoined = true)
    (hu' : wk'.unjoined = false) : rd₁.joined.1.Counted := by
  have hc := hput.conn
  have he := hput.ended
  have hs := hput.snap
  have hopen := h.open_of_unjoined (mem_of_getElem? hput.found) hu
  have hcount : rd₁.pending - 1 = rd₁.workers.countP Worker.unjoined := by
    rw [hput.workers, countP_put hput.found, hput.pending, h.count, hu, hu']
    simp
  unfold Read.joined endExport
  dsimp only
  split
  · next hlast =>
    rw [if_neg (by simp [he, hopen])]
    refine ⟨hcount, fun hnone => ?_, fun _ => ⟨?_, ?_⟩⟩
    · have hsome : rd₁.snap.isSome := hlast.2
      have hnone : rd₁.snap = none := hnone
      simp [hnone] at hsome
    · exact iff_of_true rfl hlast.1
    · exact iff_of_true rfl rfl
  · next hmore =>
    refine ⟨hcount, fun hnone => ?_, fun hsome => ⟨?_, ?_⟩⟩
    · have hnone : rd₁.snap = none := hnone
      rw [he, hc]
      exact h.pinned (hs ▸ hnone)
    · show rd₁.ended = true ↔ rd₁.pending - 1 = 0
      rw [he, hopen]
      refine iff_of_false nofun fun hz => hmore ⟨hz, isSome_iff_ne_none.2 hsome⟩
    · show rd₁.conn = none ↔ rd₁.ended = true
      rw [he, hc]
      exact (h.exported (hs ▸ hsome)).2

end Put

/-! ### Sessions and pins -/

/-- The other slots keep their sessions, and the guard's session its pins. -/
def Others (rd rd' : Read) (slot : Slot) : Prop := (∀ s, s ≠ slot → rd'.uses s = rd.uses s) ∧ (slot ≠ none → rd'.held = rd.held)

/-- How a step that does this to a session changes the read's sessions and pins. -/
def Moves (free : Int32 → Bool) (rd rd' : Read) : SessionOp → Prop
  | .keep => (∀ slot, rd'.uses slot = rd.uses slot) ∧ (rd.conn ≠ none → rd'.held = rd.held)
  | .take slot c => rd.uses slot = none ∧ rd'.uses slot = some c ∧ Others rd rd' slot ∧ (slot = none → rd'.held = [])
  | .release slot => rd'.uses slot = none ∧ Others rd rd' slot ∧ (slot = none → rd.held = [])
  | .destroy slot => rd'.uses slot = none ∧ Others rd rd' slot
  | .lock key => (∀ slot, rd'.uses slot = rd.uses slot) ∧ rd'.held = rd.held ++ [key] ∧ free key = true
  | .unlock keys => (∀ slot, rd'.uses slot = rd.uses slot) ∧ keys = rd.held ∧ rd'.held = []

theorem uses_eq (hc : rd'.conn = rd.conn) (hw : rd'.workers = rd.workers) (slot : Slot) : rd'.uses slot = rd.uses slot := by
  cases slot with
  | none => exact hc
  | some i => simp [Read.uses, hw]

theorem others_none (hw : rd'.workers = rd.workers) : Others rd rd' none := by
  refine ⟨fun slot hs => ?_, fun h => absurd rfl h⟩
  cases slot with
  | none => exact absurd rfl hs
  | some i => simp [Read.uses, hw]

/-- The fields that the opening of a guard leaves alone. -/
def Untouched (rd rd' : Read) : Prop :=
  rd'.pieces = rd.pieces ∧ rd'.workers = rd.workers ∧ rd'.pending = rd.pending ∧ rd'.next = rd.next ∧ rd'.answers = rd.answers ∧
    rd'.failed = rd.failed ∧ rd'.snap = rd.snap ∧ rd'.ended = rd.ended

theorem Quiet.of_untouched (h : rd.Quiet) (hu : Untouched rd rd') : rd'.Quiet := by
  obtain ⟨-, hw, hp, hn, ha, hf, hs, he⟩ := hu
  exact ⟨by rw [hw, hp]; exact h.workers, hn.trans h.next, ha.trans h.answers, hf.trans h.failed, hs.trans h.snap, he.trans h.ended⟩

theorem sound_failed (h : rd.Quiet) (hph : rd'.phase = .done true) (hc : rd'.conn = none) (hw : rd'.workers = rd.workers) :
    rd'.Sound srv chunks := by
  simp only [Sound, hph]
  refine ⟨hc, fun i => ?_, nofun⟩
  rw [← h.uses i]
  simp [Read.uses, hw]

theorem Quiet.core (h : rd.Quiet) (hw : rd'.workers = rd.workers) (hn : rd'.next = rd.next) (ha : rd'.answers = rd.answers)
    (hpinned : rd'.snap = none → srv.inRecovery = false ∧ rd'.keys = pinKeys rd'.pieces ∧
      ∀ p ∈ rd'.pieces, fileRows chunks p.fileID = fileRows rd'.base p.fileID)
    (hexported : ∀ s, rd'.snap = some s → s = rd'.base ∧ rd'.keys = []) : rd'.Core srv chunks := by
  obtain ⟨n, hpos, hwork, -⟩ := h.workers
  rw [hwork] at hw
  refine ⟨hpinned, hexported, fun x hx => ?_, fun _ j hj => ?_, fun _ wk hwk hl => ?_, ?_⟩
  · rw [ha, h.answers] at hx
    cases hx
  · rw [hn, h.next] at hj
    cases hj
  · rw [hw] at hwk
    rw [eq_of_mem_replicate hwk] at hl
    cases hl
  · rw [hw]
    simp
    omega

theorem opens_sound (h : rd.Sound srv chunks)
    (hclean : a = .pinFails → rd.held = []) (hn : rd.opens srv chunks free rd.phase a = some (rd', op)) :
    rd'.Sound srv chunks ∧ Moves free rd rd' op := by
  have huntouched : ∀ (phase : Phase) (conn : Option Nat) (keys : List Int32) (base : List ChunkRow),
      Untouched rd { rd with phase := phase, conn := conn, keys := keys, base := base } :=
    fun _ _ _ _ => ⟨rfl, rfl, rfl, rfl, rfl, rfl, rfl, rfl⟩
  unfold opens at hn
  split at hn
  · -- a connection; pins, if they may do
    next c hph =>
    simp only [Sound, hph] at h
    obtain ⟨hq, hconn, hkeys⟩ := h
    cases hn
    by_cases hpins : (!srv.forceSnapshotReads && !srv.inRecovery && decide ((pinKeys rd.pieces).length ≤ maxPinnedFiles)) = true
    · rw [if_pos hpins]
      simp only [Bool.and_eq_true, Bool.not_eq_true'] at hpins
      exact ⟨⟨hq.of_untouched (huntouched ..), nofun, hkeys, hpins.1.2, [], rfl, .slnil⟩, hconn, rfl, others_none rfl, fun _ => rfl⟩
    · rw [if_neg hpins]
      exact ⟨⟨hq.of_untouched (huntouched ..), nofun, hkeys⟩, hconn, rfl, others_none rfl, fun _ => rfl⟩
  · next c hph =>
    simp only [Sound, hph] at h
    obtain ⟨hq, hconn, hkeys⟩ := h
    cases hn
    exact ⟨⟨hq.of_untouched (huntouched ..), nofun, hkeys⟩, hconn, rfl, others_none rfl, fun _ => rfl⟩
  · next hph =>
    simp only [Sound, hph] at h
    cases hn
    exact ⟨sound_failed h.1 rfl h.2.1 rfl, fun slot => uses_eq rfl rfl slot, fun hc => absurd h.2.1 hc⟩
  · next hph =>
    simp only [Sound, hph] at h
    cases hn
    exact ⟨sound_failed h.1 rfl h.2.1 rfl, fun slot => uses_eq rfl rfl slot, fun hc => absurd h.2.1 hc⟩
  · next k todo got hph =>
    have hheld : rd.held = got := by simp only [held, hph]
    simp only [Sound, hph] at h
    obtain ⟨hq, hconn, hkeys, hrec, seen, hseen, hsub⟩ := h
    have hseen' : pinKeys rd.pieces = (seen ++ [k]) ++ todo := by rw [hseen, append_assoc]; rfl
    split at hn
    · next hfree =>
      cases hn
      exact ⟨⟨hq.of_untouched (huntouched ..), hconn, hkeys, hrec, seen ++ [k], hseen', hsub.append (.refl [k])⟩,
        fun slot => uses_eq rfl rfl slot, by rw [hheld]; rfl, hfree⟩
    · cases hn
      exact ⟨⟨hq.of_untouched (huntouched ..), hconn, hkeys, hrec, seen ++ [k], hseen', hsub.trans (sublist_append_left seen [k])⟩,
        fun slot => uses_eq rfl rfl slot, fun _ => by rw [hheld]; rfl⟩
  · next got hph =>
    have hheld : rd.held = got := by simp only [held, hph]
    simp only [Sound, hph] at h
    obtain ⟨hq, hconn, hkeys, hrec, seen, hseen, hsub⟩ := h
    rw [append_nil] at hseen
    split at hn
    · next hall =>
      -- as many as were asked for are all of them
      obtain rfl : got = seen := hsub.eq_of_length (by rw [hall, hseen])
      cases hn
      refine ⟨⟨hq.core rfl rfl rfl (fun _ => ⟨hrec, hseen.symm, fun _ _ => rfl⟩) fun s hs => ?_, hq.counted hconn rfl rfl rfl rfl⟩,
        fun slot => uses_eq rfl rfl slot, fun _ => by rw [hheld]; rfl⟩
      cases hq.snap.symm.trans hs
    · split at hn
      · next hnone =>
        cases hn
        exact ⟨⟨hq.of_untouched (huntouched ..), hconn, hkeys⟩, fun slot => uses_eq rfl rfl slot, fun _ => by rw [hheld, hnone]; rfl⟩
      · cases hn
        exact ⟨⟨hq.of_untouched (huntouched ..), hconn⟩, fun slot => uses_eq rfl rfl slot, fun _ => by rw [hheld]; rfl⟩
  · next todo got hph =>
    have hnone := hclean rfl
    simp only [Sound, hph] at h
    cases hn
    exact ⟨sound_failed h.1 rfl rfl rfl, rfl, others_none rfl, fun _ => hnone⟩
  · next ok hph =>
    have hheld : rd.held = rd.keys := by simp only [held, hph]
    simp only [Sound, hph] at h
    split at hn
    · cases hn
      exact ⟨⟨h.1.of_untouched (huntouched ..), h.2, rfl⟩, fun slot => uses_eq rfl rfl slot, hheld.symm, rfl⟩
    · cases hn
      exact ⟨⟨h.1.of_untouched (huntouched ..), rfl, rfl⟩, rfl, others_none rfl⟩
  · next hph =>
    have hheld : rd.held = [] := by simp only [held, hph]
    simp only [Sound, hph] at h
    obtain ⟨hq, hconn, hkeys⟩ := h
    cases hn
    refine ⟨⟨hq.core rfl rfl rfl nofun fun s hs => ?_, hq.counted hconn rfl rfl rfl rfl⟩, fun slot => uses_eq rfl rfl slot, fun _ => ?_⟩
    · cases hs
      exact ⟨rfl, hkeys⟩
    · rw [hheld]
      exact hkeys
  · next hph =>
    have hheld : rd.held = [] := by simp only [held, hph]
    simp only [Sound, hph] at h
    cases hn
    exact ⟨sound_failed h.1 rfl rfl rfl, rfl, others_none rfl, fun _ => hheld⟩
  · cases hn

/-- What a query of the read finds is what was there when the guard was acquired. -/
theorem Core.sees_base (h : rd.Core srv chunks) (hp : p ∈ rd.pieces) : getRange (rd.sees chunks) p = getRange rd.base p := by
  cases hs : rd.snap with
  | none =>
    rw [sees, hs]
    exact getRange_congr ((h.pinned hs).2.2 p hp)
  | some s =>
    rw [sees, hs, getD_some, (h.exported s hs).1]

section Works

variable {i : Nat} {wk wk' : Worker} {rd' : Read}

theorem uses_worker (hi : rd.workers[i]? = some wk) : rd.uses (some i) = wk.conn := by
  simp [Read.uses, hi]

variable (hput : Puts rd rd' i wk wk')

include hput

theorem uses_of_put (j : Nat) : rd'.uses (some j) = if j = i then wk'.conn else rd.uses (some j) := by
  have huses := uses_put rd i wk' (List.getElem?_eq_some_iff.1 hput.found).1 (some j)
  simp only [Option.some.injEq] at huses
  rw [← huses]
  simp [Read.uses, hput.workers]

theorem moves_keep (hconn : wk'.conn = wk.conn) : Moves free rd rd' .keep := by
  refine ⟨fun slot => ?_, fun _ => hput.held⟩
  cases slot with
  | none => exact hput.conn
  | some j =>
    rw [uses_of_put hput]
    split
    · next hji => rw [hji, hconn, uses_worker hput.found]
    · rfl

theorem others_put : Others rd rd' (some i) := by
  refine ⟨fun slot hs => ?_, fun _ => hput.held⟩
  cases slot with
  | none => exact hput.conn
  | some j => rw [uses_of_put hput, if_neg fun hji => hs (congrArg some hji)]

theorem moves_take (hwk : wk.conn = none) {c : Nat} (hwk' : wk'.conn = some c) : Moves free rd rd' (.take (some i) c) := by
  refine ⟨(uses_worker hput.found).trans hwk, ?_, others_put hput, nofun⟩
  rw [uses_of_put hput, if_pos rfl, hwk']

theorem moves_release (hwk' : wk'.conn = none) : Moves free rd rd' (.release (some i)) := by
  refine ⟨?_, others_put hput, nofun⟩
  rw [uses_of_put hput, if_pos rfl, hwk']

/-- A worker counts itself; the end of the export gives the guard's session back, on which there are
no pins. -/
theorem moves_joined (hconn : wk'.conn = wk.conn) (hnopins : rd'.snap ≠ none → rd.held = []) :
    Moves free rd rd'.joined.1 rd'.joined.2 := by
  have hkeep : Moves free rd rd' .keep := moves_keep hput hconn
  unfold Read.joined endExport
  dsimp only
  split
  · next hlast =>
    split
    · exact hkeep
    · refine ⟨rfl, ⟨fun slot hs => ?_, fun h => absurd rfl h⟩, fun _ => hnopins (isSome_iff_ne_none.1 hlast.2)⟩
      cases slot with
      | none => exact absurd rfl hs
      | some j => exact hkeep.1 (some j)
  · exact hkeep

variable (hcount : rd.Counted) (hph : rd.phase = .running) (hcore : rd'.Core srv chunks) (hconn : wk'.conn = wk.conn)

include hcount hph hcore hconn

theorem joined_sound (hu : wk.unjoined = true) (hu' : wk'.unjoined = false) (hnopins : rd.snap ≠ none → rd.held = []) :
    (rd'.joined.1.phase = .running ∧ rd'.joined.1.Core srv chunks ∧ rd'.joined.1.Counted) ∧ Moves free rd rd'.joined.1 rd'.joined.2 := by
  obtain ⟨hp, hk, hs, hb, hw, hne, ha, hf, hph'⟩ := joined_same rd'
  exact ⟨⟨hph'.trans (hput.phase.trans hph), hcore.congr ⟨hp, hk, hs, hb, hw, hne, ha, hf⟩, hcount.joined hput hu hu'⟩,
    moves_joined hput hconn (hput.snap ▸ hnopins)⟩

theorem keep_sound (hu : wk'.unjoined = wk.unjoined) :
    (rd'.phase = .running ∧ rd'.Core srv chunks ∧ rd'.Counted) ∧ Moves free rd rd' .keep :=
  ⟨⟨hput.phase.trans hph, hcore, hcount.put hput hu⟩, moves_keep hput hconn⟩

omit hput hcount hph hcore hconn

theorem works_sound (hcore : rd.Core srv chunks) (hcount : rd.Counted) (hph : rd.phase = .running)
    (hi : rd.workers[i]? = some wk) (hn : rd.works chunks i wk a = some (rd', op)) :
    (rd'.phase = .running ∧ rd'.Core srv chunks ∧ rd'.Counted) ∧ Moves free rd rd' op := by
  have hheld : rd.held = rd.keys := by simp only [held, hph]
  have hnopins : rd.snap ≠ none → rd.held = [] := by
    intro hs
    obtain ⟨s, hs⟩ := ne_none_iff_exists'.1 hs
    rw [hheld]
    exact (hcore.exported s hs).2
  have hmem := mem_of_getElem? hi
  unfold works at hn
  split at hn
  · split at hn
    · cases hn
      exact keep_sound ⟨hi, rfl, rfl⟩ hcount hph (hcore.moves hi nofun nofun) rfl rfl
    · cases hn
  · split at hn
    · cases hn
    · cases hn
      exact ⟨⟨hph, hcore.moves hi nofun nofun, hcount.put ⟨hi, rfl, rfl⟩ rfl⟩, moves_take ⟨hi, rfl, rfl⟩ rfl rfl⟩
  · next err =>
    split at hn
    · next hmay =>
      cases hn
      refine keep_sound ⟨hi, rfl, rfl⟩ hcount hph (hcore.moves hi nofun fun hl _ => ?_) rfl rfl
      cases err with
      | true => cases hl
      | false => exact of_decide_eq_true (hmay.2.resolve_left Bool.false_ne_true)
    · cases hn
  · next c _ =>
    split at hn
    · next hended =>
      -- cannot happen: a worker that has not counted itself keeps the export open
      cases (hcount.open_of_unjoined hmem rfl).symm.trans hended
    · cases hn
      exact keep_sound ⟨hi, rfl, rfl⟩ hcount hph (hcore.moves hi nofun nofun) rfl rfl
  · next err =>
    split at hn
    · next hmay =>
      cases hn
      refine ⟨⟨hph, hcore.moves hi nofun fun hl _ => ?_, hcount.put ⟨hi, rfl, rfl⟩ rfl⟩, moves_release ⟨hi, rfl, rfl⟩ rfl⟩
      cases err with
      | true => cases hl
      | false => exact of_decide_eq_true (hmay.resolve_left Bool.false_ne_true)
    · cases hn
  · next c _ =>
    obtain ⟨rfl, rfl⟩ : rd' = _ ∧ op = _ := Prod.ext_iff.1 (Option.some.inj hn).symm
    exact joined_sound ⟨hi, rfl, rfl⟩ hcount hph (hcore.moves hi nofun nofun) rfl rfl rfl hnopins
  · next err _ =>
    obtain ⟨rfl, rfl⟩ : rd' = _ ∧ op = _ := Prod.ext_iff.1 (Option.some.inj hn).symm
    refine joined_sound ⟨hi, rfl, rfl⟩ hcount hph ?_ rfl rfl rfl hnopins
    refine hcore.put ⟨hi, rfl, rfl⟩ (fun _ hx => hx) (fun _ hx => .inl hx) (fun hf => (Bool.or_eq_false_iff.1 hf).1)
      (le_rfl) (fun _ hj _ => .inl hj) (fun _ _ _ hwk => nomatch hwk) fun hf _ => ?_
    -- one that gave up without an error had nothing left to claim
    obtain ⟨hok, rfl⟩ := Bool.or_eq_false_iff.1 hf
    exact hcore.left hok _ hmem rfl
  · next c _ =>
    split at hn
    · next hfailed =>
      cases hn
      refine keep_sound ⟨hi, rfl, rfl⟩ hcount hph (hcore.moves hi nofun fun _ hf => ?_) rfl rfl
      cases hfailed.symm.trans hf
    · split at hn
      · next hlt =>
        cases hn
        refine keep_sound ⟨hi, rfl, rfl⟩ hcount hph ?_ rfl rfl
        refine hcore.put ⟨hi, rfl, rfl⟩ (fun _ hx => hx) (fun _ hx => .inl hx) id (Nat.le_succ _) (fun j hj _ => ?_)
          (fun _ _ _ hwk => nomatch hwk) nofun
        rcases Nat.lt_succ_iff_lt_or_eq.1 hj with hj | rfl
        · exact .inl hj
        · exact .inr ⟨c, rfl⟩
      · next hge =>
        cases hn
        refine keep_sound ⟨hi, rfl, rfl⟩ hcount hph ?_ rfl rfl
        refine hcore.put ⟨hi, rfl, rfl⟩ (fun _ hx => hx) (fun _ hx => .inl hx) id (Nat.le_succ _) (fun j hj hlen => ?_)
          (fun _ _ _ hwk => nomatch hwk) fun _ _ => Nat.lt_succ_of_le (Nat.not_lt.1 hge)
        exact .inl (Nat.lt_of_lt_of_le hlen (Nat.not_lt.1 hge))
  · next c j rows =>
    split at hn
    · cases hn
    · next p hp =>
      split at hn
      · next hrows =>
        cases hn
        refine keep_sound ⟨hi, rfl, rfl⟩ hcount hph ?_ rfl rfl
        refine hcore.put ⟨hi, rfl, rfl⟩ (fun x hx => mem_append_left _ hx)
          (Conc.forall_push (fun _ => .inl) (.inr ⟨p, hp, hcore.sees_base (mem_of_getElem? hp) ▸ hrows.2⟩)) id (le_rfl)
          (fun _ hj _ => .inl hj) (fun _ c' j' hwk => ?_) nofun
        cases hwk
        exact .inl ⟨rows, mem_append_right _ (mem_singleton.2 rfl)⟩
      · cases hn
  · next c j =>
    cases hn
    refine keep_sound ⟨hi, rfl, rfl⟩ hcount hph ?_ rfl rfl
    exact hcore.put ⟨hi, rfl, rfl⟩ (fun _ hx => hx) (fun _ hx => .inl hx) nofun (le_rfl) (fun _ hj _ => .inl hj) nofun nofun
  · obtain ⟨rfl, rfl⟩ : rd' = _ ∧ op = _ := Prod.ext_iff.1 (Option.some.inj hn).symm
    exact joined_sound ⟨hi, rfl, rfl⟩ hcount hph (hcore.moves hi nofun fun _ hf => hcore.left hf _ hmem rfl) rfl rfl rfl hnopins
  · next c _ =>
    cases hn
    exact ⟨⟨hph, hcore.moves hi nofun fun _ hf => hcore.left hf _ hmem rfl, hcount.put ⟨hi, rfl, rfl⟩ rfl⟩,
      moves_release ⟨hi, rfl, rfl⟩ rfl⟩
  · cases hn

end Works

theorem Core.all_over (h : rd.Core srv chunks) (hall : ∀ wk ∈ rd.workers, wk = .finished) : rd.Over := by
  refine ⟨h.right, fun hf j hj => ?_⟩
  obtain ⟨wk, hwk⟩ := exists_mem_of_ne_nil _ h.nonempty
  have hnext := h.left hf wk hwk (by rw [hall wk hwk]; rfl)
  rcases h.covered hf j (Nat.lt_trans hj hnext) hj with hans | ⟨c, hc⟩
  · exact hans
  · cases hall _ hc

theorem uses_of_finished (hall : ∀ wk ∈ rd.workers, wk = .finished) (i : Nat) : rd.uses (some i) = none := by
  cases hi : rd.workers[i]? with
  | none => simp only [Read.uses, hi, bind_none]
  | some wk =>
    rw [uses_worker hi, hall wk (mem_of_getElem? hi)]
    rfl

theorem Over.of_same (h : rd.Over) (hp : rd'.pieces = rd.pieces) (ha : rd'.answers = rd.answers) (hb : rd'.base = rd.base)
    (hf : rd'.failed = rd.failed) : rd'.Over := by
  refine ⟨?_, ?_⟩
  · rw [Right, ha, hp, hb]
    exact h.right
  · rw [hf, hp, ha]
    exact h.complete

theorem closes_sound {ok : Bool} (hcore : rd.Core srv chunks) (hcount : rd.Counted) (hph : rd.phase = .running)
    (hall : ∀ wk ∈ rd.workers, wk = .finished) (hn : rd.closes ok = (rd', op)) : rd'.Sound srv chunks ∧ Moves free rd rd' op := by
  have hheld : rd.held = rd.keys := by simp only [held, hph]
  have hover := hcore.all_over hall
  have huses := uses_of_finished hall
  unfold closes at hn
  split at hn
  · next s hs =>
    have hkeys := (hcore.exported s hs).2
    unfold endExport at hn
    split at hn
    · -- the last worker has ended the export
      next hended =>
      cases hn
      have hconn : rd.conn = none := (hcount.exported (by simp [hs])).2.2 hended
      exact ⟨⟨hconn, huses, fun hf => ⟨hover.of_same rfl rfl rfl rfl, hf⟩⟩, fun slot => uses_eq rfl rfl slot, fun hc => absurd hconn hc⟩
    · cases hn
      exact ⟨⟨rfl, huses, fun hf => ⟨hover.of_same rfl rfl rfl rfl, hf⟩⟩, rfl, others_none rfl, fun _ => hheld.trans hkeys⟩
  · next hs =>
    have hconn := (hcount.pinned hs).2
    split at hn
    · cases hn
      exact ⟨⟨hover.of_same rfl rfl rfl rfl, hconn, huses⟩, fun slot => uses_eq rfl rfl slot, hheld.symm, rfl⟩
    · cases hn
      exact ⟨⟨rfl, huses, fun hf => ⟨hover.of_same rfl rfl rfl rfl, hf⟩⟩, rfl, others_none rfl⟩

theorem step_sound (h : rd.Sound srv chunks) (hclean : a = .pinFails → rd.held = []) (hn : rd.step srv chunks free a = some (rd', op)) :
    rd'.Sound srv chunks ∧ Moves free rd rd' op := by
  unfold step at hn
  split at hn
  · next ok hph =>
    simp only [Sound, hph] at h
    split at hn
    · next hall =>
      refine closes_sound h.1 h.2 hph (fun wk hwk => ?_) (Option.some.inj hn)
      exact beq_iff_eq.1 (List.all_eq_true.1 hall wk hwk)
    · cases hn
  · next hph _ =>
    simp only [Sound, hph] at h
    split at hn
    · cases hn
    · split at hn
      · cases hn
      · next wk hi =>
        obtain ⟨⟨hph', hcore, hcount⟩, hmoves⟩ := works_sound h.1 h.2 hph hi hn
        refine ⟨?_, hmoves⟩
        simp only [Sound, hph']
        exact ⟨hcore, hcount⟩
  · next hph =>
    have hheld : rd.held = [] := by simp only [held, hph]
    simp only [Sound, hph] at h
    obtain ⟨hover, -, huses⟩ := h
    cases hn
    exact ⟨⟨rfl, huses, fun hf => ⟨hover.of_same rfl rfl rfl rfl, hf⟩⟩, rfl, others_none rfl, fun _ => hheld⟩
  · exact opens_sound h hclean hn

/-- Rows that the read has not pinned may come and go. -/
theorem Sound.frame (h : rd.Sound srv chunks)
    (hrows : rd.phase = .running → rd.snap = none → ∀ p ∈ rd.pieces, fileRows chunks' p.fileID = fileRows chunks p.fileID) :
    rd.Sound srv chunks' := by
  unfold Sound at h ⊢
  split at h
  case h_6 hph =>
    obtain ⟨hcore, hcount⟩ := h
    refine ⟨{ hcore with pinned := fun hs => ?_ }, hcount⟩
    obtain ⟨hrec, hkeys, hsame⟩ := hcore.pinned hs
    exact ⟨hrec, hkeys, fun p hp => (hrows hph hs p hp).trans (hsame p hp)⟩
  all_goals exact h

end Read

end Pgvs3.Guard
