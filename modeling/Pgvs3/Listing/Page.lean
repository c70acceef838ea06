import Pgvs3.Data.LexOrder
import Pgvs3.Data.Text
import Pgvs3.Ns
/-!
# Listing a bucket page by page

A table is in the order of its primary key, the collation "C": by code points. A page that starts
behind `after` marks the common prefix of `after` as seen. Among rows that have the prefix this
makes the pages parts of one list, `marks` (`foldList_folded`).
-/

namespace Pgvs3.Listing

open List Data

/-! ## The table -/

structure Row where
  key : Text
  size : Nat
  etag : Text
  originEtag : Option Text
  createdAt : Nat
  originModified : Option Nat
  expiresAt : Option Nat
deriving DecidableEq, Repr

/-- Neither expired nor a tombstone. -/
def Row.live (now : Nat) (r : Row) : Bool :=
  r.expiresAt.all (fun t => now < t) && r.originEtag.all fun e => !"deleted:".toList.isPrefixOf e

structure Table where
  rows : List Row
  ordered : rows.Pairwise fun r r' => r.key < r'.key

/-- `store/object.go:1205-1208`. -/
structure Listed where
  key : Text
  size : Nat
  etag : Text
  originETag : Text
  createdAt : Nat
deriving DecidableEq, Repr

def Row.listed (r : Row) : Listed :=
  ⟨r.key, r.size, r.etag, r.originEtag.getD [], r.originModified.getD r.createdAt⟩

/-- `store/object.go:1210-1229`. -/
def Table.list (t : Table) (now : Nat) (pre preEnd after : Text) (limit : Nat) : List Listed :=
  ((t.rows.filter fun r => decide (pre ≤ r.key ∧ r.key < preEnd ∧ after < r.key) && r.live now).map Row.listed).take limit

/-! ## The range of a prefix -/

/-- `unicode.MaxRune`. -/
def maxRune : Char := Char.ofNat 0x10ffff

theorem char_lt_iff {c d : Char} : c < d ↔ c.toNat < d.toNat := UInt32.lt_iff_toNat_lt

theorem toNat_le_maxRune (c : Char) : c.toNat ≤ 0x10ffff := by
  have h := c.valid
  change c.val.toNat ≤ _
  omega

theorem le_maxRune (c : Char) : c ≤ maxRune := not_lt.1 fun h => by
  have := toNat_le_maxRune c
  rw [char_lt_iff] at h
  have hmax : maxRune.toNat = 0x10ffff := by decide
  omega

/-- The next code point as a string: the surrogates become U+FFFD. -/
def nextRune (c : Char) : Char := if c.toNat = 0xd7ff then '�' else Char.ofNat (c.toNat + 1)

/-- `request.go:210-219`. -/
def prefixEnd (pre : Text) : Text :=
  match pre.reverse.dropWhile (· == maxRune) with
  | [] => [maxRune]
  | c :: rest => (nextRune c :: rest).reverse

/-- What a listing of the prefix reads. -/
def InRange (pre k : Text) : Prop := pre ≤ k ∧ k < prefixEnd pre

instance (pre k : Text) : Decidable (InRange pre k) := inferInstanceAs (Decidable (_ ∧ _))

/-! ## A page -/

/-- `s3/object.go:1306-1314`. -/
structure Request where
  pre : Text
  delimiter : Text
  maxKeys : Nat
  after : Text
deriving DecidableEq, Repr

/-- `s3/object.go:1316-1321`. -/
structure Entry where
  key : Text
  lastModified : Nat
  etag : Text
  size : Nat
deriving DecidableEq, Repr

/-- `s3/object.go:1323-1328`. -/
structure Page where
  contents : List Entry
  commonPrefixes : List Text
  truncated : Bool
  nextToken : Text
deriving DecidableEq, Repr

def Listed.entry (l : Listed) : Entry := ⟨l.key, l.createdAt, l.etag, l.size⟩

def Page.empty : Page := ⟨[], [], false, []⟩

/-- `KeyCount`. -/
def Page.count (p : Page) : Nat := p.contents.length + p.commonPrefixes.length

def listPageSize : Nat := 1024

def lastKey (after : Text) (rows : List Listed) : Text := rows.getLast?.elim after (·.key)

/-- The rows behind `after`, fetched in batches (`s3/object.go:1361-1383`). -/
def iterListed (source : Text → Nat → List Listed) : Nat → Text → List Listed
  | 0, _ => []
  | fuel + 1, after =>
    let rows := source after listPageSize
    if rows.length < listPageSize then rows else rows ++ iterListed source fuel (lastKey after rows)

/-- `strings.TrimPrefix`. -/
def trimPre (key pre : Text) : Text := if pre.isPrefixOf key then key.drop pre.length else key

/-- `s3/object.go:1385-1395`. -/
def virtualPrefix (key pre delimiter : Text) : Option Text :=
  if delimiter = [] then none else (upTo delimiter (trimPre key pre)).map (pre ++ ·)

/-- The loop of `foldList`. -/
def foldRows (req : Request) : List Listed → List Text → Text → Page → Page
  | [], _, _, page => page
  | row :: rows, seen, after, page =>
    match virtualPrefix row.key req.pre req.delimiter with
    | some cp =>
      if cp ∈ seen then foldRows req rows seen row.key page
      else if req.maxKeys ≤ page.count then { page with truncated := true, nextToken := after }
      else foldRows req rows (cp :: seen) row.key { page with commonPrefixes := page.commonPrefixes ++ [cp] }
    | none =>
      if req.maxKeys ≤ page.count then { page with truncated := true, nextToken := after }
      else foldRows req rows seen row.key { page with contents := page.contents ++ [row.entry] }

/-- `s3/object.go:1397-1438`. -/
def foldList (req : Request) (rows : List Listed) : Page :=
  if req.maxKeys = 0 then .empty
  else foldRows req rows (virtualPrefix req.after req.pre req.delimiter).toList req.after .empty

structure Query where
  pre : Text
  delimiter : Text
  maxKeys : Option Int
  startAfter : Text
  continuationToken : Text
deriving DecidableEq, Repr

/-- `none`: `invalid max-keys` (`s3/object.go:1332-1359`). -/
def parseListRequest (q : Query) : Option Request :=
  if q.maxKeys.any (· < 0) then none
  else some ⟨q.pre, q.delimiter, min (q.maxKeys.getD 1000).toNat 1000,
    if q.continuationToken = [] then q.startAfter else q.continuationToken⟩

/-- `s3/object.go:1485-1496`. -/
def listObjectsV2 (t : Table) (now : Nat) (q : Query) : Option Page :=
  (parseListRequest q).map fun req =>
    foldList req (iterListed (t.list now req.pre (prefixEnd req.pre)) (t.rows.length + 1) req.after)

def follow (t : Table) (now : Nat) : Nat → Query → Option (List Page)
  | 0, _ => none
  | fuel + 1, q => do
    let page ← listObjectsV2 t now q
    if page.truncated then
      let pages ← follow t now fuel { q with continuationToken := page.nextToken }
      return page :: pages
    else return [page]

/-! ## The rows behind a key -/

variable {t : Table} {now : Nat} {pre a : Text} {l : Listed} {rows : List Listed}

def Table.past (t : Table) (now : Nat) (pre a : Text) : List Listed :=
  (t.rows.filter fun r => decide (pre ≤ r.key ∧ r.key < prefixEnd pre ∧ a < r.key) && r.live now).map Row.listed

theorem Table.list_eq (limit : Nat) : t.list now pre (prefixEnd pre) a limit = (t.past now pre a).take limit := rfl

theorem Table.mem_past : l ∈ t.past now pre a ↔ ∃ r ∈ t.rows, r.live now = true ∧ InRange pre r.key ∧ a < r.key ∧ r.listed = l := by
  simp only [Table.past, mem_map, mem_filter, Bool.and_eq_true, decide_eq_true_eq, InRange]
  constructor
  · rintro ⟨r, ⟨hr, ⟨h1, h2, h3⟩, hl⟩, rfl⟩
    exact ⟨r, hr, hl, ⟨h1, h2⟩, h3, rfl⟩
  · rintro ⟨r, hr, hl, ⟨h1, h2⟩, h3, rfl⟩
    exact ⟨r, ⟨hr, ⟨h1, h2, h3⟩, hl⟩, rfl⟩

theorem Table.lt_of_mem_past (h : l ∈ t.past now pre a) : a < l.key := by
  obtain ⟨r, -, -, -, hlt, rfl⟩ := Table.mem_past.1 h
  exact hlt

abbrev Ordered (rows : List Listed) : Prop := rows.Pairwise fun l l' => l.key < l'.key

theorem Table.past_ordered : Ordered (t.past now pre a) :=
  pairwise_map.2 (t.ordered.filter _)

theorem Table.length_past_le : (t.past now pre a).length ≤ t.rows.length := by
  rw [Table.past, length_map]
  exact length_filter_le _ _

@[simp] theorem lastKey_nil : lastKey a [] = a := rfl

theorem lastKey_cons (l : Listed) (rows : List Listed) : lastKey a (l :: rows) = lastKey l.key rows := by
  cases rows <;> simp [lastKey, getLast?_cons]

theorem le_lastKey (ho : Ordered rows) (ha : ∀ l ∈ rows, a < l.key) : a ≤ lastKey a rows ∧ ∀ l ∈ rows, l.key ≤ lastKey a rows := by
  induction rows generalizing a with
  | nil => simp
  | cons m rows ih =>
    have hm : a < m.key := ha m mem_cons_self
    obtain ⟨hle, hrows⟩ := ih (pairwise_cons.1 ho).2 (pairwise_cons.1 ho).1
    rw [lastKey_cons]
    refine ⟨hm.le.trans hle, fun l hl => ?_⟩
    rcases mem_cons.1 hl with rfl | hl
    · exact hle
    · exact hrows l hl

theorem lastKey_lt {rest : List Listed} (ho : Ordered (rows ++ rest)) (ha : ∀ l ∈ rest, a < l.key) :
    ∀ l ∈ rest, lastKey a rows < l.key := by
  induction rows generalizing a with
  | nil => exact ha
  | cons m rows ih =>
    rw [lastKey_cons]
    obtain ⟨hm, hrows⟩ := pairwise_cons.1 ho
    exact ih hrows fun l hl => hm l (mem_append_right rows hl)

theorem Table.past_lastKey {done rest : List Listed} (h : t.past now pre a = done ++ rest) : t.past now pre (lastKey a done) = rest := by
  have ho : Ordered (done ++ rest) := h ▸ Table.past_ordered
  have hlt : ∀ l ∈ done ++ rest, a < l.key := fun l hl => Table.lt_of_mem_past (h ▸ hl)
  obtain ⟨hle, hdone⟩ := le_lastKey (pairwise_append.1 ho).1 fun l hl => hlt l (mem_append_left _ hl)
  have hrest := lastKey_lt ho fun l hl => hlt l (mem_append_right _ hl)
  have hfilter : t.past now pre (lastKey a done) = (t.past now pre a).filter fun l => decide (lastKey a done < l.key) := by
    rw [Table.past, Table.past, List.filter_map, List.filter_filter]
    congr 1
    refine filter_congr fun r _ => ?_
    by_cases hr : lastKey a done < r.key
    · simp [hr, lt_of_le_of_lt hle hr, Row.listed]
    · simp [hr, Row.listed]
  rw [hfilter, h, filter_append, filter_eq_nil_iff.2, filter_eq_self.2, nil_append]
  · exact fun l hl => decide_eq_true (hrest l hl)
  · intro l hl
    simpa using hdone l hl

theorem iterListed_eq {fuel : Nat} (h : (t.past now pre a).length < fuel) :
    iterListed (t.list now pre (prefixEnd pre)) fuel a = t.past now pre a := by
  induction fuel generalizing a with
  | zero => omega
  | succ fuel ih =>
    rw [iterListed]
    simp only [Table.list_eq, length_take]
    split
    · next hlt => exact take_of_length_le (by omega)
    · next hge =>
      have hsplit := (take_append_drop listPageSize (t.past now pre a)).symm
      have hpast := Table.past_lastKey hsplit
      rw [ih, hpast, ← hsplit]
      have hsize : 0 < listPageSize := by decide
      rw [hpast, length_drop]
      omega

/-! ## Common prefixes -/

variable {delimiter k k' cp : Text}

theorem trimPre_append (r : Text) : trimPre (pre ++ r) pre = r := by
  simp [trimPre, List.isPrefixOf_iff_prefix]

theorem virtualPrefix_eq_some : virtualPrefix k pre delimiter = some cp ↔
    delimiter ≠ [] ∧ ∃ h, upTo delimiter (trimPre k pre) = some h ∧ cp = pre ++ h := by
  unfold virtualPrefix
  split
  · next hd => simp [hd]
  · next hd => simp [hd, eq_comm]

theorem isPrefix_of_virtualPrefix (hk : pre <+: k) (h : virtualPrefix k pre delimiter = some cp) : cp <+: k := by
  obtain ⟨-, x, hx, rfl⟩ := virtualPrefix_eq_some.1 h
  obtain ⟨r, rfl⟩ := hk
  rw [trimPre_append] at hx
  exact (prefix_append_right_inj pre).2 (upTo_isPrefix hx)

theorem virtualPrefix_of_isPrefix (h : virtualPrefix k pre delimiter = some cp) (hk' : cp <+: k') :
    virtualPrefix k' pre delimiter = some cp := by
  obtain ⟨hd, x, hx, rfl⟩ := virtualPrefix_eq_some.1 h
  obtain ⟨r, rfl⟩ := hk'
  refine virtualPrefix_eq_some.2 ⟨hd, x, ?_, rfl⟩
  rw [append_assoc, trimPre_append]
  exact upTo_of_isPrefix hx (prefix_append x r)

/-- The keys of a common prefix lie together. -/
theorem virtualPrefix_between (hk' : pre <+: k') (h : virtualPrefix k' pre delimiter = some cp) (hle : cp ≤ k)
    (hlt : k ≤ k') : virtualPrefix k pre delimiter = some cp :=
  virtualPrefix_of_isPrefix h (isPrefix_of_between (isPrefix_of_virtualPrefix hk' h) hle hlt)

/-! ## What the pages say together -/

inductive Mark where
  | content (key : Text)
  | common (cp : Text)
deriving DecidableEq, Repr

def Mark.name : Mark → Text
  | .content key => key
  | .common cp => cp

def mark (pre delimiter k : Text) : Mark := (virtualPrefix k pre delimiter).elim (.content k) .common

/-- The entries of keys in their order, the last key before them having the common prefix `c`. -/
def marks (pre delimiter : Text) : Option Text → List Text → List Mark
  | _, [] => []
  | c, k :: ks =>
    match virtualPrefix k pre delimiter with
    | none => .content k :: marks pre delimiter none ks
    | some cp => if c = some cp then marks pre delimiter c ks else .common cp :: marks pre delimiter (some cp) ks

def contentsOf (ms : List Mark) : List Text :=
  ms.filterMap fun
    | .content key => some key
    | .common _ => none

def commonsOf (ms : List Mark) : List Text :=
  ms.filterMap fun
    | .content _ => none
    | .common cp => some cp

def keysOf (rows : List Listed) : List Text := rows.map (·.key)

variable {req : Request} {rows : List Listed} {seen : List Text} {after : Text} {page : Page} {row : Listed}

/-- The page `out` has the entries of `done`, after those of `page`, and leaves `rest` to the next
one. -/
structure Folded (req : Request) (after : Text) (page out : Page) (done rest : List Listed) : Prop where
  contents : out.contents.map (·.key) = page.contents.map (·.key) ++
    contentsOf (marks req.pre req.delimiter (virtualPrefix after req.pre req.delimiter) (keysOf done))
  commons : out.commonPrefixes = page.commonPrefixes ++
    commonsOf (marks req.pre req.delimiter (virtualPrefix after req.pre req.delimiter) (keysOf done))
  truncated : out.truncated = true ↔ rest ≠ []
  token : rest ≠ [] → out.nextToken = lastKey after done
  progress : page.count < req.maxKeys → rest ≠ [] → done ≠ []

/-- `seen` tells, of the rows to come, those with the common prefix of `after`. -/
structure Going (req : Request) (rows : List Listed) (seen : List Text) (after : Text) : Prop where
  ordered : Ordered rows
  behind : ∀ l ∈ rows, after < l.key
  has : ∀ l ∈ rows, req.pre <+: l.key
  seen : ∀ l ∈ rows, ∀ cp, virtualPrefix l.key req.pre req.delimiter = some cp →
    (cp ∈ seen ↔ virtualPrefix after req.pre req.delimiter = some cp)
  under : ∀ l ∈ rows, ∀ cp, virtualPrefix l.key req.pre req.delimiter = some cp →
    virtualPrefix after req.pre req.delimiter = some cp → cp <+: after

theorem Going.next {seen' : List Text} (h : Going req (row :: rows) seen after)
    (hs : ∀ cp, cp ∈ seen' ↔ cp ∈ seen ∨ virtualPrefix row.key req.pre req.delimiter = some cp) :
    Going req rows seen' row.key where
  ordered := (pairwise_cons.1 h.ordered).2
  behind := (pairwise_cons.1 h.ordered).1
  has := fun l hl => h.has l (mem_cons_of_mem row hl)
  seen := by
    intro l hl cp hcp
    rw [hs]
    refine ⟨?_, .inr⟩
    rintro (hmem | hrow)
    · -- The common prefix was that of `after`, and `row` lies between.
      have hl' := mem_cons_of_mem row hl
      have hunder := h.under l hl' cp hcp ((h.seen l hl' cp hcp).1 hmem)
      exact virtualPrefix_between (h.has l hl') hcp
        ((le_of_isPrefix hunder).trans (h.behind row mem_cons_self).le) ((pairwise_cons.1 h.ordered).1 l hl).le
    · exact hrow
  under := fun l hl cp _ hrow => isPrefix_of_virtualPrefix (h.has row mem_cons_self) hrow

theorem Folded.stop (page : Page) (h : req.maxKeys ≤ page.count) (hrows : rows ≠ []) :
    Folded req after page { page with truncated := true, nextToken := after } [] rows where
  contents := by simp [keysOf, marks, contentsOf]
  commons := by simp [keysOf, marks, commonsOf]
  truncated := by simp [hrows]
  token := fun _ => rfl
  progress := fun hlt _ => absurd hlt (Nat.not_lt.2 h)

theorem Folded.cons {page' out : Page} {done rest : List Listed} (m : List Mark) (hf : Folded req row.key page' out done rest)
    (hms : marks req.pre req.delimiter (virtualPrefix after req.pre req.delimiter) (keysOf (row :: done)) =
      m ++ marks req.pre req.delimiter (virtualPrefix row.key req.pre req.delimiter) (keysOf done))
    (hcontents : page'.contents.map (·.key) = page.contents.map (·.key) ++ contentsOf m)
    (hcommons : page'.commonPrefixes = page.commonPrefixes ++ commonsOf m) :
    Folded req after page out (row :: done) rest where
  contents := by rw [hf.contents, hms, hcontents, contentsOf, contentsOf, contentsOf, filterMap_append, append_assoc]
  commons := by rw [hf.commons, hms, hcommons, commonsOf, commonsOf, commonsOf, filterMap_append, append_assoc]
  truncated := hf.truncated
  token := fun hr => by rw [lastKey_cons]; exact hf.token hr
  progress := by simp

/-- A page takes the entries of the rows one by one, in their order. -/
theorem foldRows_folded (h : Going req rows seen after) (ht : page.truncated = false) :
    ∃ done rest, rows = done ++ rest ∧ Folded req after page (foldRows req rows seen after page) done rest := by
  induction rows generalizing seen after page with
  | nil =>
    refine ⟨[], [], rfl, ?_⟩
    constructor <;> simp [foldRows, keysOf, marks, contentsOf, commonsOf, ht]
  | cons row rows ih =>
    rw [foldRows]
    cases hrow : virtualPrefix row.key req.pre req.delimiter with
    | some cp =>
      have hseen := h.seen row mem_cons_self cp hrow
      dsimp only
      by_cases hmem : cp ∈ seen
      · have hgoing : Going req rows seen row.key := h.next fun cq => by
          rw [hrow, Option.some.injEq]
          exact ⟨.inl, fun hcq => hcq.elim id fun he => he ▸ hmem⟩
        obtain ⟨done, rest, rfl, hf⟩ := ih hgoing ht
        rw [if_pos hmem]
        exact ⟨row :: done, rest, rfl, hf.cons [] (by simp [keysOf, marks, hrow, hseen.1 hmem])
          (by simp [contentsOf]) (by simp [commonsOf])⟩
      · have hgoing : Going req rows (cp :: seen) row.key := h.next fun cq => by
          rw [hrow, Option.some.injEq, mem_cons, or_comm, eq_comm]
        have hafter : virtualPrefix after req.pre req.delimiter ≠ some cp := fun he => hmem (hseen.2 he)
        rw [if_neg hmem]
        by_cases hfull : req.maxKeys ≤ page.count
        · rw [if_pos hfull]
          exact ⟨[], row :: rows, rfl, .stop page hfull (by simp)⟩
        · rw [if_neg hfull]
          obtain ⟨done, rest, rfl, hf⟩ :=
            ih hgoing (show { page with commonPrefixes := page.commonPrefixes ++ [cp] }.truncated = false from ht)
          exact ⟨row :: done, rest, rfl, hf.cons [.common cp] (by simp [keysOf, marks, hrow, hafter])
            (by simp [contentsOf]) (by simp [commonsOf])⟩
    | none =>
      have hgoing : Going req rows seen row.key := h.next fun cq => by simp [hrow]
      by_cases hfull : req.maxKeys ≤ page.count
      · rw [if_pos hfull]
        exact ⟨[], row :: rows, rfl, .stop page hfull (by simp)⟩
      · rw [if_neg hfull]
        obtain ⟨done, rest, rfl, hf⟩ :=
          ih hgoing (show { page with contents := page.contents ++ [row.entry] }.truncated = false from ht)
        exact ⟨row :: done, rest, rfl, hf.cons [.content row.key] (by simp [keysOf, marks, hrow])
          (by simp [contentsOf, Listed.entry]) (by simp [commonsOf])⟩

theorem foldList_folded (hmax : 0 < req.maxKeys) (ho : Ordered rows) (ha : ∀ l ∈ rows, req.after < l.key)
    (hp : ∀ l ∈ rows, req.pre <+: l.key)
    (hu : ∀ l ∈ rows, ∀ cp, virtualPrefix l.key req.pre req.delimiter = some cp →
      virtualPrefix req.after req.pre req.delimiter = some cp → cp <+: req.after) :
    ∃ done rest, rows = done ++ rest ∧ Folded req req.after .empty (foldList req rows) done rest := by
  rw [foldList, if_neg (Nat.ne_of_gt hmax)]
  exact foldRows_folded ⟨ho, ha, hp, fun l _ cp _ => Option.mem_toList, hu⟩ rfl

end Pgvs3.Listing
