import Pgvs3.Codec.Transparent
import Pgvs3.Conc.Machine
/-!
# Every run of the block cache

Any entry can be evicted between any two steps, and a reader that is cut off takes no further step.
A `get` changes only the frequency of its entry, so gets are no actions of their own: a lookup takes
several, and each answer is that of some state (`FromRuns`).
-/

namespace Pgvs3.Codec

open List Option Function

/-- `block` is `none` for the entry of a whole file (-1). -/
structure EntryKey where
  table : Nat
  file : Int64
  block : Option Nat
deriving DecidableEq, Repr

def entryOf (content : Nat → Int64 → Bytes) (k : EntryKey) : Bytes :=
  match k.block with
  | none => content k.table k.file
  | some b => blockOf (content k.table k.file) b

/-- `put` into a shard of `max` bytes: nothing empty, nothing too large, nothing twice
(`blockcache.go:104-129`). -/
def put (max : Nat) (entries : EntryKey → Option Bytes) (k : EntryKey) (data : Bytes) : EntryKey → Option Bytes :=
  if data.length = 0 ∨ max < data.length ∨ (entries k).isSome then entries else update entries k (some data)

/-- A reader that fills, with the number of its next row. -/
structure Filling where
  table : Nat
  file : Int64
  no : Nat
  fill : BlockFill

/-- `blockcache.go:30-34`. -/
structure Cache where
  entries : EntryKey → Option Bytes
  readers : List Filling

def Cache.empty : Cache := ⟨fun _ => none, []⟩

inductive Act
  /-- A reader of a piece begins. -/
  | fill (table : Nat) (p : Piece)
  /-- Reader `i` adds its next row. -/
  | row (i : Nat)
  /-- One round of `cacheFile`: the entry of the whole file, or that of block `b`. -/
  | cacheFile (table : Nat) (file : Int64) (b : Nat)
  | evict (k : EntryKey)

def Cache.next (max : Nat) (content : Nat → Int64 → Bytes) (s : Cache) : Act → Option Cache
  | .fill table p =>
    if p.segLen = (content table p.fileID).length then
      match fill (table ≠ 0 ∧ blockRows * rowBytes ≤ max) p with
      | some f => some { s with readers := s.readers ++ [⟨table, p.fileID, p.lo, f⟩] }
      | none => some s
    else none
  | .row i =>
    match s.readers[i]? with
    | none => none
    | some r =>
      let c := content r.table r.file
      if r.no * rowBytes < c.length then
        let x := r.fill.add (fun b => (s.entries ⟨r.table, r.file, some b⟩).isSome) r.no (rowOf c r.no)
        let entries :=
          match x.1.1 with
          | some block => put max s.entries ⟨r.table, r.file, some (r.no / blockRows)⟩ block
          | none => s.entries
        some ⟨entries, s.readers.set i { r with no := r.no + 1, fill := x.2 }⟩
      else none
  | .cacheFile table file b =>
    let c := content table file
    if table = 0 then some s
    else if c.length ≤ max then some { s with entries := put max s.entries ⟨table, file, none⟩ c }
    else match (cacheFile c)[b]? with
      | some (b, d) => some { s with entries := put max s.entries ⟨table, file, some b⟩ d }
      | none => some s
  | .evict k => some { s with entries := update s.entries k none }

def machine (max : Nat) (content : Nat → Int64 → Bytes) : Conc.Machine := ⟨Cache, Act, Cache.next max content⟩

/-- `cachedFile`, given what the cache answers for the entries of the file
(`blockcache.go:248-272`). -/
def cachedFile (max table : Nat) (file : Int64) (get : Option Nat → Option Bytes) (size : Nat) : Option Bytes :=
  if table = 0 ∨ size = 0 then none
  else if size ≤ max then (get none).filter (·.length = size)
  else (pieceParts (fun b => get (some b)) ⟨file, 0, size, 0, segmentLastRow size⟩ 0 (size - 1)).map flatten

/-- Every answer for an entry of the file was there in some state. -/
def FromRuns (max : Nat) (content : Nat → Int64 → Bytes) (table : Nat) (file : Int64) (get : Option Nat → Option Bytes) : Prop :=
  ∀ b d, get b = some d → ∃ acts w, (machine max content).run .empty acts = some w ∧ w.entries ⟨table, file, b⟩ = some d

variable {max : Nat} {content : Nat → Int64 → Bytes}

/-! ## Steps -/

/-- The entries are right, and so is what the readers have assembled. -/
structure Cache.Ok (content : Nat → Int64 → Bytes) (s : Cache) : Prop where
  entries : ∀ k d, s.entries k = some d → d = entryOf content k
  readers : ∀ r ∈ s.readers, r.fill.Sound (content r.table r.file) r.no

theorem entries_put {entries : EntryKey → Option Bytes} (h : ∀ k d, entries k = some d → d = entryOf content k) {k : EntryKey}
    {data : Bytes} (hd : data = entryOf content k) : ∀ k' d, put max entries k data k' = some d → d = entryOf content k' := by
  unfold put
  split
  · exact h
  · refine update_all h fun d heq => ?_
    cases heq
    exact hd

theorem mem_puts_of_add {f : BlockFill} {contains : Nat → Bool} {no : Nat} {data d : Bytes}
    (h : (f.add contains no data).1.1 = some d) : (no / blockRows, d) ∈ (f.add contains no data).2.puts := by
  revert h
  unfold BlockFill.add BlockFill.append
  grind

theorem Cache.Ok.next {s s' : Cache} {a : Act} (h : s.Ok content) (hn : s.next max content a = some s') : s'.Ok content := by
  cases a with
  | fill table p =>
    simp only [Cache.next, fill] at hn
    split at hn
    · next hlen =>
      split at hn
      · next f hf =>
        cases hn
        refine ⟨h.entries, forall_mem_append.2 ⟨h.readers, forall_mem_singleton.2 ?_⟩⟩
        split at hf
        · cases hf
          exact ⟨hlen, nofun, nofun⟩
        · cases hf
      · cases hn
        exact h
    · cases hn
  | row i =>
    simp only [Cache.next] at hn
    split at hn
    · cases hn
    · next r hr =>
      split at hn
      · next hin =>
        cases hn
        obtain ⟨hsound, -⟩ := (h.readers r (mem_of_getElem? hr)).add hin fun b => (s.entries ⟨r.table, r.file, some b⟩).isSome
        refine ⟨?_, fun r' hr' => ?_⟩
        · split
          · next block hblock => exact entries_put h.entries (hsound.puts _ _ (mem_puts_of_add hblock))
          · exact h.entries
        · rcases mem_or_eq_of_mem_set hr' with hr' | rfl
          · exact h.readers r' hr'
          · exact hsound
      · cases hn
  | cacheFile table file b =>
    simp only [Cache.next] at hn
    split at hn
    · cases hn
      exact h
    · split at hn
      · cases hn
        exact ⟨entries_put h.entries rfl, h.readers⟩
      · split at hn
        · next b' d hd =>
          cases hn
          exact ⟨entries_put h.entries (mem_cacheFile (mem_of_getElem? hd)), h.readers⟩
        · cases hn
          exact h
  | evict k =>
    cases hn
    exact ⟨update_all h.entries nofun, h.readers⟩

/-! ## Lookups -/

theorem FromRuns.entry {table : Nat} {file : Int64} (get : Option Nat → Option Bytes) (h : FromRuns max content table file get)
    {b : Option Nat} {d : Bytes} (hd : get b = some d) : d = entryOf content ⟨table, file, b⟩ := by
  obtain ⟨acts, w, hrun, hw⟩ := h b d hd
  have hok : Cache.Ok content w := Conc.Machine.run_invariant (fun _ _ _ hs hn => hs.next hn)
    ⟨(fun _ _ h => by cases h), (fun _ h => by cases h)⟩ hrun
  exact hok.entries _ _ hw

/-- The whole file, from its blocks. -/
theorem flatten_wholeFile {c : Bytes} {file : Int64} {get : Nat → Option Bytes} (hget : Right c get) (hpos : 0 < c.length)
    {parts : List Bytes} (h : pieceParts get ⟨file, 0, c.length, 0, segmentLastRow c.length⟩ 0 (c.length - 1) = some parts) :
    parts.flatten = c := by
  have hall : c.extract 0 (0 + c.length) = c := by rw [Nat.zero_add, extract_all _ (le_refl _)]
  rw [flatten_pieceParts rfl hall ⟨rfl, .inr rfl⟩ (Nat.zero_le _) (by simpa using hpos) hget h, Piece.bytes, clip, Piece.from, Piece.upTo,
    Nat.min_eq_left (le_rows _)]
  simp only [Nat.zero_mul, Nat.zero_add, Nat.max_self, Nat.sub_add_cancel hpos, Nat.min_self]
  exact extract_all _ (le_refl _)

/-- **The content of the block cache.** After every run, every entry holds its file's bytes for its
rows, or the whole file; `pieceParts` finds the bytes of the piece's blocks, and `cachedFile` the
file. -/
theorem cache_content_right (max : Nat) (content : Nat → Int64 → Bytes) :
    (∀ acts w, (machine max content).run .empty acts = some w → ∀ k d, w.entries k = some d → d = entryOf content k) ∧
    ∀ table file get, FromRuns max content table file get →
      (∀ (p : Piece) (object : Bytes) (start stop : Nat) (parts : List Bytes), p.segLen = (content table file).length → p.lo ≤ p.hi →
        object.extract p.base (p.base + p.segLen) = content table file → pieceParts (fun b => get (some b)) p start stop = some parts →
        parts.flatten = clip object start (stop + 1) (p.base + min p.segLen (p.lo / blockRows * blockRows * rowBytes))
          (p.base + min p.segLen ((p.hi / blockRows + 1) * blockRows * rowBytes)) ∧
        (p.Aligned → p.lo * rowBytes < p.segLen → parts.flatten = p.bytes object start stop)) ∧
      ∀ d, cachedFile max table file get (content table file).length = some d → d = content table file := by
  refine ⟨fun acts w hrun k d hk => ?_, fun table file get h => ?_⟩
  · exact FromRuns.entry (fun b => w.entries ⟨k.table, k.file, b⟩) (fun b d hd => ⟨acts, w, hrun, hd⟩) hk
  have hget : Right (content table file) fun b => get (some b) := fun b d hd => h.entry get hd
  refine ⟨fun p object start stop parts hs hle hc hparts => ?_, fun d hd => ?_⟩
  · rw [hs] at hc ⊢
    exact ⟨flatten_pieceParts_blocks hc hle hget hparts, fun hal hin => flatten_pieceParts hs hc hal hle hin hget hparts⟩
  · unfold cachedFile at hd
    split at hd
    · cases hd
    · next hpos =>
      split at hd
      · exact h.entry get (filter_eq_some_iff.1 hd).1
      · obtain ⟨parts, hparts, rfl⟩ := map_eq_some_iff.1 hd
        exact flatten_wholeFile hget (by omega) hparts

/-- A read assembles the block of a file, another file is cached whole, and a third is evicted
again. -/
theorem two_files_cached : ∃ w, (machine (blockRows * rowBytes) fun _ => twoParts).run .empty
      [.fill 5 ⟨1, 0, 3, 0, 0⟩, .row 0, .cacheFile 5 2 0, .cacheFile 5 1 0, .evict ⟨5, 1, none⟩] = some w ∧
    (∃ parts, pieceParts (fun b => w.entries ⟨5, 1, some b⟩) ⟨1, 0, 3, 0, 0⟩ 1 2 = some parts ∧ parts.flatten = [2, 3]) ∧
    ∃ d, cachedFile (blockRows * rowBytes) 5 2 (fun b => w.entries ⟨5, 2, b⟩) 2 = some d ∧ d = [4, 5] := by
  have hright := (cache_content_right (blockRows * rowBytes) fun _ => twoParts).2
  obtain ⟨w, hrun, hparts, hfile⟩ : ∃ w, (machine (blockRows * rowBytes) fun _ => twoParts).run .empty
        [.fill 5 ⟨1, 0, 3, 0, 0⟩, .row 0, .cacheFile 5 2 0, .cacheFile 5 1 0, .evict ⟨5, 1, none⟩] = some w ∧
      pieceParts (fun b => w.entries ⟨5, 1, some b⟩) ⟨1, 0, 3, 0, 0⟩ 1 2 = some [[2, 3]] ∧
      cachedFile (blockRows * rowBytes) 5 2 (fun b => w.entries ⟨5, 2, b⟩) 2 = some [4, 5] := ⟨_, rfl, rfl, rfl⟩
  have hfrom : ∀ file, FromRuns (blockRows * rowBytes) (fun _ => twoParts) 5 file fun b => w.entries ⟨5, file, b⟩ :=
    fun _ _ _ hd => ⟨_, w, hrun, hd⟩
  refine ⟨w, hrun, ⟨_, hparts, ?_⟩, ⟨_, hfile, (hright 5 2 _ (hfrom 2)).2 _ hfile⟩⟩
  exact (((hright 5 1 _ (hfrom 1)).1 ⟨1, 0, 3, 0, 0⟩ [1, 2, 3] 1 2 _ rfl (by decide) rfl hparts).2 ⟨rfl, .inr rfl⟩ (by decide)).trans rfl

end Pgvs3.Codec
