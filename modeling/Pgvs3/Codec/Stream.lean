import Pgvs3.Codec.Align
import Pgvs3.Codec.RowReader
import Pgvs3.Conc.Window
import Pgvs3.Store.ByteRange
/-!
# Streaming an object

A read gets `Answers`: for each piece the rows its query returns and what the cache says about its
blocks. Which worker takes which piece, and when each of them goes on, is left to the run of a
`Conc.Window`. Connection errors are left out.
-/

namespace Pgvs3.Codec

open Conc (Source Window)
open List Option

structure Answers where
  /-- `get` of `pieceParts`, for each block of a piece. -/
  get : Piece → Nat → Option Bytes
  /-- `contains` of `blockFill.add`, for each block of a piece. -/
  contains : Piece → Nat → Bool
  rows : Piece → List RawRow

/-- A gateway: the compressor, whether it has a block cache, and whether a block fits into a shard.
-/
structure Gateway where
  z : Zstd
  blocks : Bool
  roomy : Bool

/-- The table that keys the cache for this read; 0 stands for no cache. -/
def Gateway.table (g : Gateway) (m : Meta) : Nat := if g.blocks then m.table else 0

/-- `store/object.go:605-619`. -/
inductive Body where
  | static (data : Bytes)
  /-- All pieces from the cache. -/
  | parts (parts : List Bytes)
  /-- One piece, read by the caller. -/
  | single (s : Streamed)
  /-- Pieces through an ordered window. -/
  | window (sources : List (Source Bytes))

/-- Each piece with its parts, if the cache has all of them (`store/object.go:927-938`). -/
def lookupPieces (ans : Answers) (pieces : List Piece) (start stop : Nat) : List (Piece × Option (List Bytes)) :=
  pieces.map fun p => (p, pieceParts (ans.get p) p start stop)

/-- `store/object.go:686-718`. -/
def streamed (z : Zstd) (fills : Bool) (ans : Answers) (start stop : Nat) (p : Piece) : Streamed :=
  streamRows z (ans.contains p) fills p start stop (ans.rows p)

def source (z : Zstd) (fills : Bool) (ans : Answers) (start stop : Nat) : Piece × Option (List Bytes) → Source Bytes
  | (_, some parts) => .ready parts
  | (p, none) => .job (streamed z fills ans start stop p).chunks (streamed z fills ans start stop p).error.isNone

def opened (z : Zstd) (fills : Bool) (ans : Answers) (start stop : Nat) (pieces : List (Piece × Option (List Bytes))) : Body :=
  if pieces.all (·.2.isSome) then .parts (pieces.flatMap fun x => x.2.getD [])
  else
    match pieces with
    | [(p, _)] => .single (streamed z fills ans start stop p)
    | _ => .window (pieces.map (source z fills ans start stop))

/-- `store/object.go:874-923`. -/
def startStream (g : Gateway) (ans : Answers) (m : Meta) (start stop workers : Nat) : Except ReadError Body := do
  let pieces ← planPieces m start stop workers
  if g.table m ≠ 0 then
    return opened g.z g.roomy ans start stop (lookupPieces ans (alignPieces pieces) start stop)
  else return opened g.z false ans start stop (pieces.map fun p => (p, none))

/-- `store/object.go:816-845`. -/
def bodyFromMeta (g : Gateway) (ans : Answers) (m : Meta) (rng : ByteRange) (workers : Nat) : Except ReadError Body :=
  match rng.resolve m.size with
  | none => .error .invalidRange
  | some span =>
    if m.size = 0 ∨ span.stop < span.start then .ok (.static [])
    else startStream g ans m span.start.toNat span.stop.toNat workers

/-- How many chunks a worker's channel holds. -/
def channelRoom : Nat := 2

/-- What reading a body to its end can give: its bytes, or a failure, also when the first chunk does
not come. -/
inductive Body.Ends : Body → Option Bytes → Prop
  | static (data : Bytes) : Ends (.static data) (some data)
  | parts (parts : List Bytes) : Ends (.parts parts) (some parts.flatten)
  | single (s : Streamed) : Ends (.single s) (if s.error = none ∧ s.chunks ≠ [] then some s.chunks.flatten else none)
  | window {sources : List (Source Bytes)} {workers : Nat} {w : Window Bytes} (hw : 0 < workers)
      (hrun : Window.Reached sources workers channelRoom w) (hend : Window.Ended sources workers channelRoom w) :
      Ends (.window sources) (if w.stopped = false ∧ w.out ≠ [] then some w.out.flatten else none)

def Reads (g : Gateway) (ans : Answers) (m : Meta) (rng : ByteRange) (workers : Nat) (r : Option Bytes) : Prop :=
  match bodyFromMeta g ans m rng workers with
  | .error _ => r = none
  | .ok b => b.Ends r

/-! ## How a read ends -/

def Piece.inRange (p : Piece) : Bool := p.hi * rowBytes < p.segLen

/-- A piece of the object, with what the cache has of it and what its worker sends. -/
structure Fair (z : Zstd) (fills : Bool) (ans : Answers) (object : Bytes) (start stop : Nat)
    (x : Piece × Option (List Bytes)) : Prop where
  parts : ∀ parts, x.2 = some parts → parts.flatten = x.1.bytes object start stop
  error : (streamed z fills ans start stop x.1).error = none ↔ x.1.inRange = true
  chunks : (streamed z fills ans start stop x.1).error = none →
    (streamed z fills ans start stop x.1).chunks.flatten = x.1.bytes object start stop

section Ends

variable {z : Zstd} {fills : Bool} {ans : Answers} {object : Bytes} {start stop : Nat}
  {pieces : List (Piece × Option (List Bytes))} {r : Option Bytes}

/-- Every piece can be had: from the cache, or because its rows exist. -/
def Served (pieces : List (Piece × Option (List Bytes))) : Prop := ∀ x ∈ pieces, x.2 ≠ none ∨ x.1.inRange = true

theorem Fair.chunks_source {x : Piece × Option (List Bytes)} (h : Fair z fills ans object start stop x)
    (hs : x.2 ≠ none ∨ x.1.inRange = true) : (source z fills ans start stop x).chunks.flatten = x.1.bytes object start stop := by
  obtain ⟨p, parts⟩ := x
  cases parts with
  | some parts => exact h.parts parts rfl
  | none => exact h.chunks (h.error.2 (hs.resolve_left (absurd rfl)))

theorem flatten_sources (h : ∀ x ∈ pieces, Fair z fills ans object start stop x) (hs : Served pieces) :
    ((pieces.map (source z fills ans start stop)).flatMap Source.chunks).flatten =
      (pieces.map (·.1)).flatMap (·.bytes object start stop) := by
  induction pieces with
  | nil => rfl
  | cons x pieces ih =>
    rw [map_cons, map_cons, flatMap_cons, flatMap_cons, flatten_append, (h x mem_cons_self).chunks_source (hs x mem_cons_self),
      ih (fun y hy => h y (mem_cons_of_mem _ hy)) fun y hy => hs y (mem_cons_of_mem _ hy)]

theorem served_iff (h : ∀ x ∈ pieces, Fair z fills ans object start stop x) : Served pieces ↔
    ∀ (i : Nat) cs ok, (pieces.map (source z fills ans start stop))[i]? = some (.job cs ok) → ok = true := by
  constructor
  · intro hs i cs ok hi
    rw [getElem?_map] at hi
    obtain ⟨⟨p, parts⟩, hx, hsrc⟩ := map_eq_some_iff.1 hi
    have hmem := mem_of_getElem? hx
    cases parts with
    | some parts => cases hsrc
    | none =>
      cases hsrc
      exact isNone_iff_eq_none.2 ((h _ hmem).error.2 ((hs _ hmem).resolve_left (absurd rfl)))
  · intro hok x hx
    obtain ⟨p, parts⟩ := x
    cases parts with
    | some parts => exact .inl nofun
    | none =>
      obtain ⟨i, hi⟩ := getElem?_of_mem hx
      have hjob := hok i _ _ (by rw [getElem?_map, hi]; rfl)
      exact .inr ((h _ hx).error.1 (isNone_iff_eq_none.1 hjob))

theorem out_ne_nil {out : List Bytes} {bytes : Bytes} (h : out.flatten = bytes) (hne : bytes ≠ []) : out ≠ [] := by
  rintro rfl
  exact hne h.symm

theorem ends_window (h : ∀ x ∈ pieces, Fair z fills ans object start stop x)
    (hne : (pieces.map (·.1)).flatMap (·.bytes object start stop) ≠ [])
    (hr : (Body.window (pieces.map (source z fills ans start stop))).Ends r) :
    (Served pieces ∧ r = some ((pieces.map (·.1)).flatMap (·.bytes object start stop))) ∨ (¬ Served pieces ∧ r = none) := by
  cases hr with
  | window hw hrun hend =>
    rcases Window.ended hrun hend hw (by decide) with ⟨hst, hout, hok⟩ | ⟨hst, i, cs, hbad⟩
    · have hs := (served_iff h).2 hok
      have hflat := flatten_sources h hs
      rw [← hout] at hflat
      rw [if_pos ⟨hst, out_ne_nil hflat hne⟩, hflat]
      exact .inl ⟨hs, rfl⟩
    · rw [if_neg (by simp [hst])]
      refine .inr ⟨fun hs => ?_, rfl⟩
      cases (served_iff h).1 hs i cs false hbad

theorem ends_single {p : Piece} (h : Fair z fills ans object start stop (p, none)) (hne : p.bytes object start stop ≠ [])
    (hr : (Body.single (streamed z fills ans start stop p)).Ends r) :
    (Served [(p, none)] ∧ r = some (p.bytes object start stop)) ∨ (¬ Served [(p, none)] ∧ r = none) := by
  have hserved : Served [(p, none)] ↔ p.inRange = true := by simp [Served]
  cases hr with
  | single =>
    by_cases herr : (streamed z fills ans start stop p).error = none
    · have hchunks := h.chunks herr
      rw [if_pos ⟨herr, out_ne_nil hchunks hne⟩, hchunks]
      exact .inl ⟨hserved.2 (h.error.1 herr), rfl⟩
    · rw [if_neg fun hc => herr hc.1]
      exact .inr ⟨fun hs => herr (h.error.2 (hserved.1 hs)), rfl⟩

/-- A read of pieces that make up a part of the object has all of it, or fails because of a piece
that reaches too far. -/
theorem ends_opened (object : Bytes) (h : ∀ x ∈ pieces, Fair z fills ans object start stop x)
    (hne : (pieces.map (·.1)).flatMap (·.bytes object start stop) ≠ [])
    (hr : (opened z fills ans start stop pieces).Ends r) :
    (Served pieces ∧ r = some ((pieces.map (·.1)).flatMap (·.bytes object start stop))) ∨ (¬ Served pieces ∧ r = none) := by
  unfold opened at hr
  split at hr
  · -- all from the cache
    next hall =>
    have hs : Served pieces := fun x hx => .inl (isSome_iff_ne_none.1 (List.all_eq_true.1 hall x hx))
    cases hr with
    | parts =>
      refine .inl ⟨hs, congrArg some ?_⟩
      clear hne hs
      induction pieces with
      | nil => rfl
      | cons x pieces ih =>
        obtain ⟨parts, hparts⟩ := isSome_iff_exists.1 (List.all_eq_true.1 hall x mem_cons_self)
        rw [flatMap_cons, flatten_append, map_cons, flatMap_cons, hparts, getD_some, (h x mem_cons_self).parts parts hparts]
        rw [ih (fun y hy => h y (mem_cons_of_mem _ hy)) (List.all_eq_true.2 fun y hy => List.all_eq_true.1 hall y (mem_cons_of_mem _ hy))]
  · next hall =>
    split at hr
    · next p parts =>
      obtain rfl : parts = none := by
        cases parts with
        | none => rfl
        | some parts => simp at hall
      simp only [map_cons, map_nil, flatMap_cons, flatMap_nil, append_nil] at hne ⊢
      exact ends_single (h _ mem_cons_self) hne hr
    · exact ends_window h hne hr

theorem exists_ends (b : Body) : ∃ r, b.Ends r := by
  cases b with
  | static data => exact ⟨_, .static data⟩
  | parts parts => exact ⟨_, .parts parts⟩
  | single s => exact ⟨_, .single s⟩
  | window sources =>
    obtain ⟨w, hrun, hend⟩ := Window.exists_ended sources 1 channelRoom Window.init
    exact ⟨_, .window Nat.one_pos hrun hend⟩

end Ends

end Pgvs3.Codec
