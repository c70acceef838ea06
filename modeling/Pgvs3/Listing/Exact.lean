import Pgvs3.Data.Groups
import Pgvs3.Listing.Page
/-!
# The pages of a listing are exact

`Exact` says of the pages of a listing that every live key with the prefix and behind `s` is
reported once, as itself or under one common prefix, that nothing else is reported, and that the
entries increase. This is so for all tables with keys of a family `K` exactly when `Sound K`:

* `prefixEnd` lies behind the keys in question. It does not for keys from U+10FFFF on when the
  prefix has no other character.
* No key falls under the prefix followed by the beginning of an `s` that does not have the prefix
  itself (`listing_skips`).
* No other key lies before `prefixEnd`, as it can when U+D7FF is followed by U+FFFD; unless the
  first page hides it and is the last.
-/

namespace Pgvs3.Listing

open List Option Data

variable {cp x a : Text} {fuel : Nat}

/-! ## Entries of keys in order -/

variable {pre delimiter k : Text} {ks : List Text} {m : Mark} {c : Option Text}

theorem mark_content (h : virtualPrefix k pre delimiter = none) : mark pre delimiter k = .content k := by
  rw [mark, h]
  rfl

theorem mark_common (h : virtualPrefix k pre delimiter = some cp) : mark pre delimiter k = .common cp := by
  rw [mark, h]
  rfl

theorem mark_eq_content (h : mark pre delimiter k = .content x) : k = x ∧ virtualPrefix k pre delimiter = none := by
  cases hv : virtualPrefix k pre delimiter with
  | none =>
    rw [mark_content hv] at h
    exact ⟨Mark.content.inj h, rfl⟩
  | some cp =>
    rw [mark_common hv] at h
    cases h

theorem mark_eq_common (h : mark pre delimiter k = .common cp) : virtualPrefix k pre delimiter = some cp := by
  cases hv : virtualPrefix k pre delimiter with
  | none =>
    rw [mark_content hv] at h
    cases h
  | some cq =>
    rw [mark_common hv] at h
    rw [Mark.common.inj h]

/-- `k` falls under the common prefix `c`. -/
def Hidden (pre delimiter : Text) (c : Option Text) (k : Text) : Prop :=
  virtualPrefix k pre delimiter = c ∧ c ≠ none

instance (pre delimiter : Text) (c : Option Text) (k : Text) : Decidable (Hidden pre delimiter c k) :=
  inferInstanceAs (Decidable (_ ∧ _))

abbrev Under (pre delimiter a k : Text) : Prop := Hidden pre delimiter (virtualPrefix a pre delimiter) k

/-- The entries are those of the keys that begin a group. -/
theorem marks_eq (c : Option Text) :
    marks pre delimiter c ks = (heads (virtualPrefix · pre delimiter) c ks).map (mark pre delimiter) := by
  induction ks generalizing c with
  | nil => rfl
  | cons k ks ih =>
    rw [marks, heads]
    cases hv : virtualPrefix k pre delimiter with
    | none => simp [ih, mark_content hv]
    | some cp =>
      by_cases hc : c = some cp
      · simp [ih, hc]
      · simp [ih, hc, Ne.symm hc, mark_common hv]

theorem name_mark_le (hk : pre <+: k) : (mark pre delimiter k).name ≤ k := by
  cases hv : virtualPrefix k pre delimiter with
  | none => simp [mark_content hv, Mark.name]
  | some cp =>
    rw [mark_common hv]
    exact le_of_isPrefix (isPrefix_of_virtualPrefix hk hv)

/-- The entry of a key lies behind every key before it that is not under it. -/
theorem lt_name_mark (hk : pre <+: k) (hlt : a < k) (hn : ¬ Under pre delimiter a k) : a < (mark pre delimiter k).name := by
  cases hv : virtualPrefix k pre delimiter with
  | none => simpa [mark_content hv, Mark.name] using hlt
  | some cp =>
    rw [mark_common hv]
    refine lt_of_not_ge fun hle => hn ?_
    have ha := virtualPrefix_between hk hv hle hlt.le
    exact ⟨hv.trans ha.symm, by simp [ha]⟩

structure Keyed (pre a : Text) (ks : List Text) : Prop where
  ordered : ks.Pairwise (· < ·)
  behind : ∀ k ∈ ks, a < k
  has : ∀ k ∈ ks, pre <+: k

theorem Keyed.tail (h : Keyed pre a (k :: ks)) : Keyed pre k ks :=
  ⟨(pairwise_cons.1 h.ordered).2, (pairwise_cons.1 h.ordered).1, fun x hx => h.has x (mem_cons_of_mem k hx)⟩

theorem Keyed.lt_name (h : Keyed pre a ks) (hm : m ∈ marks pre delimiter (virtualPrefix a pre delimiter) ks) : a < m.name := by
  induction ks generalizing a with
  | nil => cases hm
  | cons k ks ih =>
    have hak := h.behind k mem_cons_self
    have hlater : m ∈ marks pre delimiter (virtualPrefix k pre delimiter) ks → a < m.name := fun hm => hak.trans (ih h.tail hm)
    rw [marks_eq] at hm hlater
    rw [heads] at hm
    split at hm
    · exact hlater hm
    · next hn =>
      rcases mem_cons.1 hm with rfl | hm
      · exact lt_name_mark (h.has k mem_cons_self) hak fun hh => hn ⟨isSome_iff_ne_none.2 (hh.1 ▸ hh.2), hh.1⟩
      · exact hlater hm

theorem Keyed.marks_ordered (h : Keyed pre a ks) :
    (marks pre delimiter (virtualPrefix a pre delimiter) ks).Pairwise fun m m' => m.name < m'.name := by
  induction ks generalizing a with
  | nil => exact List.Pairwise.nil
  | cons k ks ih =>
    have htail := ih h.tail
    have hlt : ∀ m ∈ marks pre delimiter _ ks, _ := fun _ => h.tail.lt_name
    rw [marks_eq] at htail hlt ⊢
    rw [heads]
    split
    · exact htail
    · exact pairwise_cons.2 ⟨fun m hm => lt_of_le_of_lt (name_mark_le (h.has k mem_cons_self)) (hlt m hm), htail⟩

theorem mem_of_mem_marks (hm : m ∈ marks pre delimiter c ks) : ∃ k ∈ ks, mark pre delimiter k = m := by
  rw [marks_eq] at hm
  obtain ⟨k, hk, hmark⟩ := mem_map.1 hm
  exact ⟨k, (heads_sublist c ks).subset hk, hmark⟩

/-- Every key has its entry, unless it falls under the common prefix before all of them. -/
theorem mark_mem_marks (hk : k ∈ ks) : mark pre delimiter k ∈ marks pre delimiter c ks ∨
    Hidden pre delimiter c k := by
  rw [marks_eq]
  rcases heads_cover (g := (virtualPrefix · pre delimiter)) (c := c) hk with hmem | ⟨hsome, hc | ⟨y, hy, hgy⟩⟩
  · exact .inl (mem_map_of_mem hmem)
  · exact .inr ⟨hc, hc ▸ isSome_iff_ne_none.1 hsome⟩
  · obtain ⟨cp, hcp⟩ := isSome_iff_exists.1 hsome
    exact .inl (mem_map.2 ⟨y, hy, by rw [mark_common hcp, mark_common (hgy.trans hcp)]⟩)

theorem marks_append (c : Text) (done rest : List Listed) : marks pre delimiter (virtualPrefix c pre delimiter) (keysOf (done ++ rest)) =
      marks pre delimiter (virtualPrefix c pre delimiter) (keysOf done) ++
        marks pre delimiter (virtualPrefix (lastKey c done) pre delimiter) (keysOf rest) := by
  have hlast : lastGroup (virtualPrefix · pre delimiter) (virtualPrefix c pre delimiter) (keysOf done) =
      virtualPrefix (lastKey c done) pre delimiter := by
    simp only [lastGroup, lastKey, keysOf, getLast?_map]
    cases done.getLast? <;> rfl
  simp [marks_eq, keysOf, heads_append, ← hlast]

/-! ## All pages -/

variable {t : Table} {now : Nat} {q : Query} {req : Request} {page : Page} {rows : List Listed}

def Shows (page : Page) (m : List Mark) : Prop :=
  page.contents.map (·.key) = contentsOf m ∧ page.commonPrefixes = commonsOf m

theorem listObjectsV2_eq (h : parseListRequest q = some req) :
    listObjectsV2 t now q = some (foldList req (t.past now req.pre req.after)) := by
  rw [listObjectsV2, h, map_some, iterListed_eq (Nat.lt_succ_of_le Table.length_past_le)]

theorem parse_token (h : parseListRequest q = some req) {token : Text} (ht : token ≠ []) :
    parseListRequest { q with continuationToken := token } = some { req with after := token } := by
  unfold parseListRequest at h ⊢
  split at h
  · cases h
  · next hmax =>
    cases h
    simp [hmax, ht]

theorem follow_last (h : listObjectsV2 t now q = some page) (ht : page.truncated = false) : follow t now (fuel + 1) q = some [page] := by
  simp [follow, h, ht]

theorem follow_next (h : listObjectsV2 t now q = some page) (ht : page.truncated = true) : follow t now (fuel + 1) q =
      (follow t now fuel { q with continuationToken := page.nextToken }).map (page :: ·) := by
  rw [follow, h]
  cases hf : follow t now fuel { q with continuationToken := page.nextToken } <;> simp [ht, hf]

theorem lastKey_mem (h : rows ≠ []) : ∃ l ∈ rows, lastKey a rows = l.key := by
  induction rows generalizing a with
  | nil => exact absurd rfl h
  | cons l rows ih =>
    rw [lastKey_cons]
    by_cases hr : rows = []
    · subst hr
      exact ⟨l, mem_cons_self, rfl⟩
    · obtain ⟨l', hl', he⟩ := ih hr
      exact ⟨l', mem_cons_of_mem l hl', he⟩

theorem ne_nil_of_lt {b : Text} (h : a < b) : b ≠ [] := by
  rintro rfl
  exact not_lt_nil a h

theorem keyed_past (hp : ∀ l ∈ t.past now pre a, pre <+: l.key) : Keyed pre a (keysOf (t.past now pre a)) where
  ordered := pairwise_map.2 Table.past_ordered
  behind := by
    intro k hk
    obtain ⟨l, hl, rfl⟩ := mem_map.1 hk
    exact Table.lt_of_mem_past hl
  has := by
    intro k hk
    obtain ⟨l, hl, rfl⟩ := mem_map.1 hk
    exact hp l hl

/-- Rows that have the prefix: the pages are the parts of one list of entries. -/
theorem follow_marks (h : parseListRequest q = some req) (hmax : 0 < req.maxKeys)
    (hp : ∀ l ∈ t.past now req.pre req.after, req.pre <+: l.key)
    (hu : ∀ l ∈ t.past now req.pre req.after, ∀ cp, virtualPrefix l.key req.pre req.delimiter = some cp →
      virtualPrefix req.after req.pre req.delimiter = some cp → cp <+: req.after) :
    ∃ fuel pages parts, follow t now fuel q = some pages ∧ List.Forall₂ Shows pages parts ∧
      parts.flatten = marks req.pre req.delimiter (virtualPrefix req.after req.pre req.delimiter)
        (keysOf (t.past now req.pre req.after)) := by
  induction hn : (t.past now req.pre req.after).length using Nat.strongRecOn generalizing q req with
  | ind n ih =>
    obtain ⟨done, rest, hsplit, hf⟩ := foldList_folded hmax Table.past_ordered (fun l => Table.lt_of_mem_past) hp hu
    have hlist : listObjectsV2 t now q = some (foldList req (t.past now req.pre req.after)) := listObjectsV2_eq h
    have hshows : Shows (foldList req (t.past now req.pre req.after))
        (marks req.pre req.delimiter (virtualPrefix req.after req.pre req.delimiter) (keysOf done)) :=
      ⟨hf.contents, hf.commons⟩
    by_cases hrest : rest = []
    · subst hrest
      have ht : (foldList req (t.past now req.pre req.after)).truncated = false := by
        simpa using hf.truncated
      refine ⟨1, _, _, follow_last hlist ht, .cons hshows .nil, ?_⟩
      rw [hsplit]
      simp
    · have hdone : done ≠ [] := hf.progress hmax hrest
      obtain ⟨l, hl, hkey⟩ := lastKey_mem hdone
      have hmem : l ∈ t.past now req.pre req.after := hsplit ▸ mem_append_left rest hl
      have htoken : (foldList req (t.past now req.pre req.after)).nextToken = lastKey req.after done := hf.token hrest
      have hne : lastKey req.after done ≠ [] := hkey ▸ ne_nil_of_lt (Table.lt_of_mem_past hmem)
      have hpast : t.past now req.pre (lastKey req.after done) = rest := Table.past_lastKey hsplit
      have hlen : rest.length < n := by
        rw [← hn, hsplit, length_append]
        have := length_pos_iff.2 hdone
        omega
      obtain ⟨fuel, pages, parts, hfollow, hall, hflat⟩ :=
        ih rest.length hlen (parse_token h hne) hmax (by rw [hpast]; exact fun l hl => hp l (hsplit ▸ mem_append_right done hl)) (by
            intro l' _ cp _ hcp
            refine isPrefix_of_virtualPrefix ?_ hcp
            rw [hkey]
            exact hp l hmem)
          (by rw [hpast])
      refine ⟨fuel + 1, _, _, ?_, .cons hshows hall, ?_⟩
      · rw [follow_next hlist (hf.truncated.2 hrest), htoken, hfollow]
        rfl
      · rw [flatten_cons, hflat, hpast, hsplit, marks_append]

/-! ## Exactness -/

def allContents (pages : List Page) : List Text := (pages.map fun p => p.contents.map (·.key)).flatten

def allCommons (pages : List Page) : List Text := (pages.map (·.commonPrefixes)).flatten

def Page.names (p : Page) : List Text := p.contents.map (·.key) ++ p.commonPrefixes

def reports (pages : List Page) (k : Text) : Nat :=
  (allContents pages).count k + (allCommons pages).countP fun cp => cp.isPrefixOf k

/-- The common prefix that contains `s` contains `k`, and `s` has the prefix. -/
def LeftOut (pre delimiter s k : Text) : Prop :=
  pre <+: s ∧ ∃ cp, virtualPrefix s pre delimiter = some cp ∧ cp <+: k

/-- A live row with the prefix, behind `s`. -/
structure Meant (now : Nat) (pre s : Text) (r : Row) : Prop where
  live : r.live now = true
  has : pre <+: r.key
  behind : s < r.key

structure Exact (t : Table) (now : Nat) (pre delimiter s : Text) (pages : List Page) : Prop where
  once : ∀ r ∈ t.rows, Meant now pre s r → reports pages r.key = 1 ∨ (LeftOut pre delimiter s r.key ∧ reports pages r.key = 0)
  contents : ∀ k ∈ allContents pages, ∃ r ∈ t.rows, Meant now pre s r ∧ r.key = k
  commons : ∀ cp ∈ allCommons pages, ∃ r ∈ t.rows, Meant now pre s r ∧ virtualPrefix r.key pre delimiter = some cp
  contentsOrdered : (allContents pages).Pairwise (· < ·)
  commonsOrdered : (allCommons pages).Pairwise (· < ·)
  ordered : pages.Pairwise fun p p' => ∀ x ∈ p.names, ∀ y ∈ p'.names, x < y

structure Told (t : Table) (now : Nat) (pre delimiter s : Text) (ms : List Mark) : Prop where
  ordered : ms.Pairwise fun m m' => m.name < m'.name
  only : ∀ m ∈ ms, ∃ r ∈ t.rows, Meant now pre s r ∧ mark pre delimiter r.key = m
  all : ∀ r ∈ t.rows, Meant now pre s r → mark pre delimiter r.key ∈ ms ∨ (LeftOut pre delimiter s r.key ∧ mark pre delimiter r.key ∉ ms)

variable {s : Text} {ms : List Mark} {pages : List Page} {parts : List (List Mark)}

variable {m : List Mark}

theorem mem_contentsOf : k ∈ contentsOf m ↔ .content k ∈ m := by
  simp only [contentsOf, mem_filterMap]
  constructor
  · rintro ⟨x, hx, he⟩
    cases x with
    | content key =>
      cases he
      exact hx
    | common cp => cases he
  · exact fun h => ⟨_, h, rfl⟩

theorem mem_commonsOf : k ∈ commonsOf m ↔ .common k ∈ m := by
  simp only [commonsOf, mem_filterMap]
  constructor
  · rintro ⟨x, hx, he⟩
    cases x with
    | content key => cases he
    | common cp =>
      cases he
      exact hx
  · exact fun h => ⟨_, h, rfl⟩

theorem contentsOf_ordered (h : ms.Pairwise fun m m' => m.name < m'.name) : (contentsOf ms).Pairwise (· < ·) := by
  refine List.Pairwise.filterMap _ (fun m m' hlt x hx y hy => ?_) h
  cases m <;> cases m' <;> simp_all [Mark.name]

theorem commonsOf_ordered (h : ms.Pairwise fun m m' => m.name < m'.name) : (commonsOf ms).Pairwise (· < ·) := by
  refine List.Pairwise.filterMap _ (fun m m' hlt x hx y hy => ?_) h
  cases m <;> cases m' <;> simp_all [Mark.name]

theorem allContents_eq (h : List.Forall₂ Shows pages parts) : allContents pages = contentsOf parts.flatten := by
  induction h with
  | nil => rfl
  | @cons page m pages parts hm _ ih =>
    have hsplit : contentsOf (m ++ parts.flatten) = contentsOf m ++ contentsOf parts.flatten := filterMap_append
    rw [flatten_cons, hsplit, ← ih, ← hm.1]
    rfl

theorem allCommons_eq (h : List.Forall₂ Shows pages parts) : allCommons pages = commonsOf parts.flatten := by
  induction h with
  | nil => rfl
  | @cons page m pages parts hm _ ih =>
    have hsplit : commonsOf (m ++ parts.flatten) = commonsOf m ++ commonsOf parts.flatten := filterMap_append
    rw [flatten_cons, hsplit, ← ih, ← hm.2]
    rfl

theorem Shows.mem_names (h : Shows page m) (hx : x ∈ page.names) : ∃ e ∈ m, e.name = x := by
  rw [Page.names, h.1, h.2] at hx
  rcases mem_append.1 hx with hx | hx
  · exact ⟨_, mem_contentsOf.1 hx, rfl⟩
  · exact ⟨_, mem_commonsOf.1 hx, rfl⟩

theorem pages_ordered (h : List.Forall₂ Shows pages parts) (ho : parts.flatten.Pairwise fun m m' => m.name < m'.name) :
    pages.Pairwise fun p p' => ∀ x ∈ p.names, ∀ y ∈ p'.names, x < y := by
  induction h with
  | nil => exact List.Pairwise.nil
  | @cons page m pages parts hm hrest ih =>
    rw [flatten_cons, pairwise_append] at ho
    refine pairwise_cons.2 ⟨fun p hp x hx y hy => ?_, ih ho.2.1⟩
    obtain ⟨e, he, rfl⟩ := hm.mem_names hx
    obtain ⟨m', hm', hshows⟩ : ∃ m' ∈ parts, Shows p m' := by
      obtain ⟨i, hi, rfl⟩ := getElem_of_mem hp
      have hi' : i < parts.length := hrest.length_eq ▸ hi
      exact ⟨parts[i], getElem_mem hi', (forall₂_iff_get.1 hrest).2 i hi hi'⟩
    obtain ⟨e', he', rfl⟩ := hshows.mem_names hy
    exact ho.2.2 e he e' (mem_flatten.2 ⟨m', hm', he'⟩)

/-- Exactly the entry of a key reports it. -/
theorem reports_eq (hp : List.Forall₂ Shows pages parts) (h : Told t now pre delimiter s parts.flatten) (hk : pre <+: k) :
    reports pages k = if mark pre delimiter k ∈ parts.flatten then 1 else 0 := by
  have hother : ∀ cq ∈ commonsOf parts.flatten, cq <+: k → virtualPrefix k pre delimiter = some cq := by
    intro cq hcq hk
    obtain ⟨r, -, -, hr⟩ := h.only _ (mem_commonsOf.1 hcq)
    exact virtualPrefix_of_isPrefix (mark_eq_common hr) hk
  rw [reports, allContents_eq hp, allCommons_eq hp]
  have hnodupC := (contentsOf_ordered h.ordered).imp fun hlt => ne_of_lt hlt
  have hnodupP := (commonsOf_ordered h.ordered).imp fun hlt => ne_of_lt hlt
  cases hv : virtualPrefix k pre delimiter with
  | none =>
    have hzero : (commonsOf parts.flatten).countP (fun cp => cp.isPrefixOf k) = 0 := by
      refine countP_eq_zero.2 fun cq hcq hpre => ?_
      have := hother cq hcq (List.isPrefixOf_iff_prefix.1 hpre)
      simp [hv] at this
    rw [hzero, Nat.add_zero, mark_content hv]
    simp only [List.Nodup.count hnodupC, mem_contentsOf]
  | some cp =>
    have hzero : (contentsOf parts.flatten).count k = 0 := by
      refine count_eq_zero.2 fun hk => ?_
      obtain ⟨r, -, -, hr⟩ := h.only _ (mem_contentsOf.1 hk)
      obtain ⟨rfl, hnone⟩ := mark_eq_content hr
      simp [hv] at hnone
    have hcount : (commonsOf parts.flatten).countP (fun cq => cq.isPrefixOf k) = (commonsOf parts.flatten).count cp := by
      refine countP_congr fun cq hcq => ?_
      rw [List.isPrefixOf_iff_prefix, beq_iff_eq]
      constructor
      · intro hk
        exact some.inj ((hother cq hcq hk).symm.trans hv)
      · rintro rfl
        exact isPrefix_of_virtualPrefix hk hv
    rw [hzero, hcount, Nat.zero_add, mark_common hv]
    simp only [List.Nodup.count hnodupP, mem_commonsOf]

theorem Told.exact (hp : List.Forall₂ Shows pages parts) (h : Told t now pre delimiter s parts.flatten) :
    Exact t now pre delimiter s pages where
  once := by
    intro r hr hmeant
    rw [reports_eq hp h hmeant.has]
    rcases h.all r hr hmeant with hm | ⟨hout, hm⟩
    · exact .inl (if_pos hm)
    · exact .inr ⟨hout, if_neg hm⟩
  contents := by
    intro k hk
    rw [allContents_eq hp] at hk
    obtain ⟨r, hr, hmeant, hmark⟩ := h.only _ (mem_contentsOf.1 hk)
    exact ⟨r, hr, hmeant, (mark_eq_content hmark).1⟩
  commons := by
    intro cp hcp
    rw [allCommons_eq hp] at hcp
    obtain ⟨r, hr, hmeant, hmark⟩ := h.only _ (mem_commonsOf.1 hcp)
    exact ⟨r, hr, hmeant, mark_eq_common hmark⟩
  contentsOrdered := allContents_eq hp ▸ contentsOf_ordered h.ordered
  commonsOrdered := allCommons_eq hp ▸ commonsOf_ordered h.ordered
  ordered := pages_ordered hp h.ordered

/-! ## When they are exact -/

structure Due (K : Text → Prop) (pre delimiter s k : Text) : Prop where
  key : K k
  has : pre <+: k
  behind : s < k
  within : ¬ LeftOut pre delimiter s k

structure Sound (K : Text → Prop) (pre delimiter s : Text) : Prop where
  inside : ∀ k, Due K pre delimiter s k → InRange pre k
  apart : ∀ k, Due K pre delimiter s k → ¬ Hidden pre delimiter (virtualPrefix s pre delimiter) k
  outside : ∀ k, K k → s < k → InRange pre k → ¬ pre <+: k → Hidden pre delimiter (virtualPrefix s pre delimiter) k ∧
      ∀ m m', Due K pre delimiter s m → Due K pre delimiter s m' → mark pre delimiter m = mark pre delimiter m'

variable {K : Text → Prop}

/-- What is left out falls under the common prefix of `s`. -/
theorem LeftOut.hidden (h : LeftOut pre delimiter s k) :
    Under pre delimiter s k := by
  obtain ⟨-, cp, hcp, hk⟩ := h
  exact ⟨(virtualPrefix_of_isPrefix hcp hk).trans hcp.symm, by simp [hcp]⟩

theorem past_mem {l : Listed} (h : l ∈ t.past now pre s) :
    ∃ r ∈ t.rows, r.live now = true ∧ InRange pre r.key ∧ s < r.key ∧ r.key = l.key := by
  obtain ⟨r, hr, hlive, hrange, hlt, rfl⟩ := Table.mem_past.1 h
  exact ⟨r, hr, hlive, hrange, hlt, rfl⟩

theorem mem_keys_past {r : Row} (hr : r ∈ t.rows) (hlive : r.live now = true) (hrange : InRange pre r.key)
    (hlt : s < r.key) : r.key ∈ keysOf (t.past now pre s) :=
  mem_map.2 ⟨r.listed, Table.mem_past.2 ⟨r, hr, hlive, hrange, hlt, rfl⟩, rfl⟩

theorem Sound.under (h : Sound K pre delimiter s) (hK : K k) (hk : pre <+: k) (hlt : s < k)
    (hcp : virtualPrefix k pre delimiter = some cp) (hs : virtualPrefix s pre delimiter = some cp) : cp <+: s := by
  by_cases hpre : pre <+: s
  · exact isPrefix_of_virtualPrefix hpre hs
  · exact absurd ⟨hcp.trans hs.symm, by simp [hs]⟩ (h.apart k ⟨hK, hk, hlt, fun hout => hpre hout.1⟩)

theorem Sound.told (h : Sound K pre delimiter s) (hK : ∀ r ∈ t.rows, r.live now = true → K r.key)
    (hp : ∀ l ∈ t.past now pre s, pre <+: l.key) :
    Told t now pre delimiter s (marks pre delimiter (virtualPrefix s pre delimiter) (keysOf (t.past now pre s))) := by
  have hkeyed : Keyed pre s (keysOf (t.past now pre s)) := keyed_past hp
  refine ⟨hkeyed.marks_ordered, fun m hm => ?_, fun r hr hmeant => ?_⟩
  · obtain ⟨k, hk, hmark⟩ := mem_of_mem_marks hm
    obtain ⟨l, hl, rfl⟩ := mem_map.1 hk
    obtain ⟨r, hr, hlive, -, hlt, hkey⟩ := past_mem hl
    exact ⟨r, hr, ⟨hlive, hkey ▸ hp l hl, hlt⟩, hkey ▸ hmark⟩
  · by_cases hout : LeftOut pre delimiter s r.key
    · refine .inr ⟨hout, fun hm => ?_⟩
      -- The entry would lie behind `s`, which it contains.
      obtain ⟨hpre, cp, hcp, hk⟩ := hout
      rw [mark_common (virtualPrefix_of_isPrefix hcp hk)] at hm
      exact not_le.2 (hkeyed.lt_name hm) (le_of_isPrefix (isPrefix_of_virtualPrefix hpre hcp))
    · have hdue : Due K pre delimiter s r.key := ⟨hK r hr hmeant.live, hmeant.has, hmeant.behind, hout⟩
      have hmem := mem_keys_past hr hmeant.live (h.inside _ hdue) hmeant.behind
      exact .inl ((mark_mem_marks hmem).resolve_right (h.apart _ hdue))

theorem foldRows_seen {seen : List Text} {after : Text}
    (h : ∀ l ∈ rows, ∃ cp ∈ seen, virtualPrefix l.key req.pre req.delimiter = some cp) :
    foldRows req rows seen after page = page := by
  induction rows generalizing after with
  | nil => rfl
  | cons l rows ih =>
    obtain ⟨cp, hcp, hl⟩ := h l mem_cons_self
    rw [foldRows, hl]
    dsimp only
    rw [if_pos hcp]
    exact ih fun l' hl' => h l' (mem_cons_of_mem l hl')

theorem foldRows_one {m : Mark} (seen : List Text) (after : Text) (ho : Ordered rows)
    (hmax : 0 < req.maxKeys) (hm : ∀ cp ∈ seen, m ≠ .common cp)
    (h : ∀ l ∈ rows, (∃ cp ∈ seen, virtualPrefix l.key req.pre req.delimiter = some cp) ∨ mark req.pre req.delimiter l.key = m) :
    ∃ ms, Shows (foldRows req rows seen after .empty) ms ∧ (foldRows req rows seen after .empty).truncated = false ∧
      (∀ x ∈ ms, x = m ∧ ∃ l ∈ rows, mark req.pre req.delimiter l.key = m) ∧ ms.Pairwise (fun x y => x.name < y.name) ∧
        ∀ l ∈ rows, mark req.pre req.delimiter l.key = m → m ∈ ms := by
  induction rows generalizing after with
  | nil => exact ⟨[], ⟨rfl, rfl⟩, rfl, by simp, .nil, by simp⟩
  | cons l rows ih =>
    obtain ⟨hl, ho⟩ := pairwise_cons.1 ho
    have hrows := fun l' hl' => h l' (mem_cons_of_mem l hl')
    rw [foldRows]
    rcases h l mem_cons_self with ⟨cp, hcp, hslot⟩ | hmark
    · rw [hslot]
      dsimp only
      rw [if_pos hcp]
      obtain ⟨ms, hshows, ht, honly, hord, hall⟩ := ih l.key ho hrows
      refine ⟨ms, hshows, ht, fun x hx => ?_, hord, fun l' hl' hm' => ?_⟩
      · obtain ⟨rfl, l', hl', he⟩ := honly x hx
        exact ⟨rfl, l', mem_cons_of_mem l hl', he⟩
      · rcases mem_cons.1 hl' with rfl | hl'
        · exact absurd (hm'.symm.trans (mark_common hslot)) (hm cp hcp)
        · exact hall l' hl' hm'
    · cases hslot : virtualPrefix l.key req.pre req.delimiter with
      | some cp =>
        rw [mark_common hslot] at hmark
        subst hmark
        have hnew : cp ∉ seen := fun hcp => hm cp hcp rfl
        dsimp only
        rw [if_neg hnew, if_neg (by simp [Page.count, Page.empty]; omega), foldRows_seen]
        · exact ⟨[.common cp], ⟨rfl, rfl⟩, rfl, fun x hx => ⟨mem_singleton.1 hx, l, mem_cons_self, mark_common hslot⟩, by simp, by simp⟩
        · intro l' hl'
          rcases hrows l' hl' with ⟨cq, hcq, hs⟩ | hm'
          · exact ⟨cq, mem_cons_of_mem cp hcq, hs⟩
          · exact ⟨cp, mem_cons_self, mark_eq_common hm'⟩
      | none =>
        rw [mark_content hslot] at hmark
        subst hmark
        dsimp only
        rw [if_neg (by simp [Page.count, Page.empty]; omega), foldRows_seen]
        · exact ⟨[.content l.key], ⟨rfl, rfl⟩, rfl,
            fun x hx => ⟨mem_singleton.1 hx, l, mem_cons_self, mark_content hslot⟩, by simp, by simp⟩
        · intro l' hl'
          rcases hrows l' hl' with hs | hm'
          · exact hs
          · exact absurd (mark_eq_content hm').1.symm (ne_of_lt (hl l' hl'))

/-- A row without the prefix is hidden, and the first page is the last. -/
theorem Sound.told_one (h : Sound K req.pre req.delimiter req.after) (hmax : 0 < req.maxKeys)
    (hK : ∀ r ∈ t.rows, r.live now = true → K r.key)
    {x : Listed} (hx : x ∈ t.past now req.pre req.after) (hnot : ¬ req.pre <+: x.key) :
    ∃ ms, Shows (foldList req (t.past now req.pre req.after)) ms ∧ (foldList req (t.past now req.pre req.after)).truncated = false ∧
        Told t now req.pre req.delimiter req.after ms := by
  obtain ⟨rx, hrx, hlivex, hrangex, hltx, hkeyx⟩ := past_mem hx
  obtain ⟨hhidden, hsame⟩ := h.outside rx.key (hK rx hrx hlivex) hltx hrangex (hkeyx ▸ hnot)
  obtain ⟨cs, hcs⟩ := ne_none_iff_exists'.1 hhidden.2
  -- Every row is hidden or due.
  have hcases : ∀ l ∈ t.past now req.pre req.after, virtualPrefix l.key req.pre req.delimiter = some cs ∨
      Due K req.pre req.delimiter req.after l.key := by
    intro l hl
    obtain ⟨r, hr, hlive, hrange, hlt, hkey⟩ := past_mem hl
    rw [← hkey, ← hcs]
    by_cases hpre : req.pre <+: r.key
    · by_cases hout : LeftOut req.pre req.delimiter req.after r.key
      · exact .inl hout.hidden.1
      · exact .inr ⟨hK r hr hlive, hpre, hlt, hout⟩
    · exact .inl (h.outside r.key (hK r hr hlive) hlt hrange hpre).1.1
  have hnotdue : ∀ k, Due K req.pre req.delimiter req.after k → mark req.pre req.delimiter k ≠ .common cs :=
    fun k hk hm => h.apart k hk ⟨(mark_eq_common hm).trans hcs.symm, by simp [hcs]⟩
  obtain ⟨m, hm, hrows⟩ : ∃ m, m ≠ .common cs ∧ ∀ l ∈ t.past now req.pre req.after,
      virtualPrefix l.key req.pre req.delimiter = some cs ∨ mark req.pre req.delimiter l.key = m := by
    by_cases hdue : ∃ k, Due K req.pre req.delimiter req.after k
    · obtain ⟨k, hk⟩ := hdue
      exact ⟨_, hnotdue k hk, fun l hl => (hcases l hl).imp_right fun hd => hsame _ _ hd hk⟩
    · exact ⟨.content [], nofun, fun l hl => (hcases l hl).imp_right fun hd => absurd ⟨_, hd⟩ hdue⟩
  obtain ⟨ms, hshows, ht, honly, hord, hall⟩ := foldRows_one [cs] req.after Table.past_ordered hmax
    (by simpa using hm) (by simpa using hrows)
  refine ⟨ms, ?_, ?_, hord, fun y hy => ?_, fun r hr hmeant => ?_⟩
  · rw [foldList, if_neg (Nat.ne_of_gt hmax), hcs]
    exact hshows
  · rw [foldList, if_neg (Nat.ne_of_gt hmax), hcs]
    exact ht
  · obtain ⟨rfl, l, hl, hmark⟩ := honly y hy
    obtain ⟨r, hr, hlive, -, hlt, hkey⟩ := past_mem hl
    have hd : Due K req.pre req.delimiter req.after l.key :=
      (hcases l hl).resolve_left fun hs => hm (hmark.symm.trans (mark_common hs))
    exact ⟨r, hr, ⟨hlive, hkey ▸ hd.has, hlt⟩, hkey ▸ hmark⟩
  · by_cases hout : LeftOut req.pre req.delimiter req.after r.key
    · refine .inr ⟨hout, fun hmem => hm ?_⟩
      rw [← (honly _ hmem).1, mark_common (hout.hidden.1.trans hcs)]
    · have hdue : Due K req.pre req.delimiter req.after r.key := ⟨hK r hr hmeant.live, hmeant.has, hmeant.behind, hout⟩
      obtain ⟨l, hl, hkey⟩ := mem_map.1 (mem_keys_past hr hmeant.live (h.inside _ hdue) hmeant.behind)
      have hmark : mark req.pre req.delimiter l.key = m :=
        (hrows l hl).resolve_left fun hs => hnotdue _ hdue (mark_common (hkey ▸ hs))
      exact .inl (hkey ▸ hmark ▸ hall l hl hmark)

/-- The listing of a sound family. -/
theorem Sound.exact (h : Sound K req.pre req.delimiter req.after) (hq : parseListRequest q = some req)
    (hmax : 0 < req.maxKeys) (hK : ∀ r ∈ t.rows, r.live now = true → K r.key) :
    ∃ fuel pages, follow t now fuel q = some pages ∧ Exact t now req.pre req.delimiter req.after pages := by
  by_cases hp : ∀ l ∈ t.past now req.pre req.after, req.pre <+: l.key
  · obtain ⟨fuel, pages, parts, hfollow, hshows, hflat⟩ := follow_marks hq hmax hp fun l hl cp hcp hs => by
      obtain ⟨r, hr, hlive, -, hlt, hkey⟩ := past_mem hl
      exact h.under (hkey ▸ hK r hr hlive) (hp l hl) (hkey ▸ hlt) hcp hs
    exact ⟨fuel, pages, hfollow, Told.exact hshows (hflat ▸ h.told hK hp)⟩
  · push Not at hp
    obtain ⟨x, hx, hnot⟩ := hp
    obtain ⟨ms, hshows, ht, htold⟩ := h.told_one hmax hK hx hnot
    refine ⟨1, _, follow_last (listObjectsV2_eq hq) ht, Told.exact (.cons hshows .nil) ?_⟩
    simpa using htold

variable {m m' : Text}

def Row.plain (k : Text) : Row := ⟨k, 0, [], none, 0, none, none⟩

theorem Row.plain_live (k : Text) (now : Nat) : (Row.plain k).live now = true := rfl

def Table.ofKeys (ks : List Text) (h : ks.Pairwise (· < ·)) : Table := ⟨ks.map Row.plain, pairwise_map.2 h⟩

theorem Table.forall_ofKeys {h : ks.Pairwise (· < ·)} {P : Row → Prop} :
    (∀ r ∈ (Table.ofKeys ks h).rows, P r) ↔ ∀ k ∈ ks, P (.plain k) := forall_mem_map

theorem Table.past_ofKeys (h : ks.Pairwise (· < ·)) (hin : ∀ k ∈ ks, InRange pre k ∧ s < k) :
    (Table.ofKeys ks h).past 0 pre s = ks.map fun k => (Row.plain k).listed := by
  rw [Table.past, Table.ofKeys, filter_eq_self.2, List.map_map]
  · rfl
  · intro r hr
    obtain ⟨k, hk, rfl⟩ := mem_map.1 hr
    obtain ⟨⟨h1, h2⟩, h3⟩ := hin k hk
    simp only [Row.plain_live, Bool.and_true, decide_eq_true_eq]
    exact ⟨h1, h2, h3⟩

def firstQuery (pre delimiter s : Text) : Query := ⟨pre, delimiter, some 1, s, []⟩

theorem parse_firstQuery : parseListRequest (firstQuery pre delimiter s) = some ⟨pre, delimiter, 1, s⟩ := rfl

section

variable (h : follow t now fuel q = some pages)
include h

theorem follow_succ : ∃ fuel', fuel = fuel' + 1 := by
  cases fuel with
  | zero => cases h
  | succ fuel => exact ⟨fuel, rfl⟩

theorem pages_of_last (hl : listObjectsV2 t now q = some page) (ht : page.truncated = false) :
    pages = [page] := by
  obtain ⟨fuel, rfl⟩ := follow_succ h
  rw [follow_last hl ht] at h
  exact (some.inj h).symm

theorem pages_of_next (hl : listObjectsV2 t now q = some page) (ht : page.truncated = true) :
    ∃ fuel' rest, follow t now fuel' { q with continuationToken := page.nextToken } = some rest ∧ pages = page :: rest := by
  obtain ⟨fuel, rfl⟩ := follow_succ h
  rw [follow_next hl ht] at h
  obtain ⟨rest, hrest, rfl⟩ := map_eq_some_iff.1 h
  exact ⟨fuel, rest, hrest, rfl⟩

end

def pageOf (req : Request) (l : Listed) : Page :=
  match virtualPrefix l.key req.pre req.delimiter with
  | none => { Page.empty with contents := [l.entry] }
  | some cp => { Page.empty with commonPrefixes := [cp] }

theorem pageOf_spec (req : Request) (l : Listed) : Shows (pageOf req l) [mark req.pre req.delimiter l.key] ∧
    (pageOf req l).count = 1 ∧ (pageOf req l).truncated = false := by
  unfold pageOf
  cases hv : virtualPrefix l.key req.pre req.delimiter with
  | none =>
    rw [mark_content hv]
    exact ⟨⟨rfl, rfl⟩, rfl, rfl⟩
  | some cp =>
    rw [mark_common hv]
    exact ⟨⟨rfl, rfl⟩, rfl, rfl⟩

variable {rows : List Listed} {seen : List Text} {l l' : Listed} {after : Text}

theorem foldRows_first (hmax : 0 < req.maxKeys) (hl : ∀ cp ∈ seen, virtualPrefix l.key req.pre req.delimiter ≠ some cp) :
    foldRows req (l :: rows) seen after .empty =
      foldRows req rows ((virtualPrefix l.key req.pre req.delimiter).toList ++ seen) l.key (pageOf req l) := by
  have hroom : ¬ req.maxKeys ≤ Page.empty.count := Nat.not_le.2 hmax
  rw [foldRows, pageOf]
  cases hv : virtualPrefix l.key req.pre req.delimiter with
  | none =>
    rw [if_neg hroom]
    rfl
  | some cp =>
    have hnew : cp ∉ seen := fun hcp => hl cp hcp hv
    dsimp only
    rw [if_neg hnew, if_neg hroom]
    rfl

theorem foldRows_full (hmax : req.maxKeys ≤ page.count) (hl : ∀ cp ∈ seen, virtualPrefix l.key req.pre req.delimiter ≠ some cp) :
    foldRows req (l :: rows) seen after page = { page with truncated := true, nextToken := after } := by
  rw [foldRows]
  cases hv : virtualPrefix l.key req.pre req.delimiter with
  | none => simp [hmax]
  | some cp =>
    have hnew : cp ∉ seen := fun hcp => hl cp hcp hv
    simp [hmax, hnew]

theorem not_seen (h : ¬ Under req.pre req.delimiter after l.key) :
    ∀ cp ∈ (virtualPrefix after req.pre req.delimiter).toList, virtualPrefix l.key req.pre req.delimiter ≠ some cp := by
  intro cp hcp hl
  rw [mem_toList] at hcp
  exact h ⟨hl.trans hcp.symm, by simp [hcp]⟩

theorem foldList_single (hmax : 0 < req.maxKeys) (h : ¬ Under req.pre req.delimiter req.after l.key) :
    foldList req [l] = pageOf req l := by
  rw [foldList, if_neg (Nat.ne_of_gt hmax), foldRows_first hmax (not_seen h)]
  rfl

theorem foldList_hidden (h : Under req.pre req.delimiter req.after l.key) : foldList req [l] = .empty := by
  rw [foldList]
  split
  · rfl
  · obtain ⟨cp, hcp⟩ := ne_none_iff_exists'.1 h.2
    refine foldRows_seen fun l' hl' => ⟨cp, by simp [hcp], ?_⟩
    rw [mem_singleton.1 hl', h.1, hcp]

theorem foldList_two (hmax : req.maxKeys = 1) (h : ¬ Under req.pre req.delimiter req.after l.key)
    (h' : ¬ Under req.pre req.delimiter req.after l'.key)
    (hne : ¬ Under req.pre req.delimiter l.key l'.key) :
    foldList req (l :: l' :: rows) = { pageOf req l with truncated := true, nextToken := l.key } := by
  rw [foldList, if_neg (by omega), foldRows_first (by omega) (not_seen h), foldRows_full]
  · rw [hmax, (pageOf_spec req l).2.1]
  · intro cp hcp
    rcases mem_append.1 hcp with hcp | hcp
    · exact not_seen hne cp hcp
    · exact not_seen h' cp hcp

def ListsExactly (t : Table) (pre delimiter s : Text) : Prop :=
  ∃ fuel pages, follow t 0 fuel (firstQuery pre delimiter s) = some pages ∧ Exact t 0 pre delimiter s pages

theorem pages_empty (hpast : t.past 0 pre s = []) (h : follow t 0 fuel (firstQuery pre delimiter s) = some pages) : pages = [.empty] := by
  have hlist : listObjectsV2 t 0 (firstQuery pre delimiter s) = some .empty := by
    rw [listObjectsV2_eq parse_firstQuery]
    simp [hpast, foldList, foldRows]
  exact pages_of_last h hlist rfl

theorem pages_single (hpast : t.past 0 pre s = [(Row.plain k).listed]) (h : follow t 0 fuel (firstQuery pre delimiter s) = some pages) :
    pages = [foldList ⟨pre, delimiter, 1, s⟩ [(Row.plain k).listed]] := by
  have hlist : listObjectsV2 t 0 (firstQuery pre delimiter s) = some (foldList ⟨pre, delimiter, 1, s⟩ [(Row.plain k).listed]) := by
    rw [listObjectsV2_eq parse_firstQuery, hpast]
  refine pages_of_last h hlist ?_
  by_cases hhid : Under pre delimiter s k
  · rw [foldList_hidden hhid]
    rfl
  · rw [foldList_single Nat.one_pos hhid]
    exact (pageOf_spec _ _).2.2

theorem not_listsExactly_of_empty (hmem : Row.plain k ∈ t.rows) (hdue : Due K pre delimiter s k)
    (h : ∀ fuel pages, follow t 0 fuel (firstQuery pre delimiter s) = some pages → pages = [.empty]) :
    ¬ ListsExactly t pre delimiter s := by
  rintro ⟨fuel, pages, hfollow, hexact⟩
  rw [h fuel pages hfollow] at hexact
  rcases hexact.once _ hmem ⟨rfl, hdue.has, hdue.behind⟩ with hone | ⟨hout, -⟩
  · simp [reports, allContents, allCommons, Page.empty] at hone
  · exact hdue.within hout

/-- A due key beyond `prefixEnd` is not listed. -/
theorem not_listsExactly_of_outside (hdue : Due K pre delimiter s k) (hout : ¬ InRange pre k) :
    ¬ ListsExactly (.ofKeys [k] (pairwise_singleton _ k)) pre delimiter s := by
  refine not_listsExactly_of_empty mem_cons_self hdue fun fuel pages => pages_empty ?_
  refine eq_nil_iff_forall_not_mem.2 fun l hl => ?_
  obtain ⟨r, hr, -, hrange, -, -⟩ := Table.mem_past.1 hl
  exact Table.forall_ofKeys (P := (¬ InRange pre ·.key)).2 (by simpa [Row.plain] using hout) r hr hrange

theorem past_single (hk : InRange pre k) (hlt : s < k) :
    (Table.ofKeys [k] (pairwise_singleton _ k)).past 0 pre s = [(Row.plain k).listed] :=
  Table.past_ofKeys _ (by simpa using ⟨hk, hlt⟩)

/-- A due key under the prefix and the beginning of `s` is not listed. -/
theorem not_listsExactly_of_hidden (hdue : Due K pre delimiter s k) (hk : InRange pre k) (hhid : Under pre delimiter s k) :
    ¬ ListsExactly (.ofKeys [k] (pairwise_singleton _ k)) pre delimiter s := by
  refine not_listsExactly_of_empty mem_cons_self hdue fun fuel pages hfollow => ?_
  rw [pages_single (past_single hk hdue.behind) hfollow, foldList_hidden hhid]

/-- A key without the prefix is listed. -/
theorem not_listsExactly_of_extra (hk : InRange pre k) (hlt : s < k) (hnot : ¬ pre <+: k) (hhid : ¬ Under pre delimiter s k) :
    ¬ ListsExactly (.ofKeys [k] (pairwise_singleton _ k)) pre delimiter s := by
  rintro ⟨fuel, pages, hfollow, hexact⟩
  rw [pages_single (past_single hk hlt) hfollow, foldList_single Nat.one_pos hhid] at hexact
  have honly : ∀ r ∈ (Table.ofKeys [k] (pairwise_singleton _ k)).rows, ¬ Meant 0 pre s r :=
    Table.forall_ofKeys.2 (by simpa using fun hmeant => hnot hmeant.has)
  cases hv : virtualPrefix k pre delimiter with
  | none =>
    obtain ⟨r, hr, hmeant, -⟩ := hexact.contents k (by simp [allContents, pageOf, Row.plain, Row.listed, hv, Listed.entry])
    exact honly r hr hmeant
  | some cp =>
    obtain ⟨r, hr, hmeant, -⟩ := hexact.commons cp (by simp [allCommons, pageOf, Row.plain, Row.listed, hv])
    exact honly r hr hmeant

/-- The first of two rows with an entry each is a page of its own. -/
theorem pages_two (h : follow t 0 fuel q = some pages) (hq : parseListRequest q = some ⟨pre, delimiter, 1, a⟩)
    (hpast : t.past 0 pre a = l :: l' :: rows)
    (hl : ¬ Under pre delimiter a l.key)
    (hl' : ¬ Under pre delimiter a l'.key)
    (hne : ¬ Under pre delimiter l.key l'.key) :
    ∃ fuel' rest page, follow t 0 fuel' { q with continuationToken := l.key } = some rest ∧ pages = page :: rest := by
  have hlist : listObjectsV2 t 0 q = some (foldList ⟨pre, delimiter, 1, a⟩ (t.past 0 pre a)) := listObjectsV2_eq hq
  rw [hpast, foldList_two rfl hl hl' hne] at hlist
  obtain ⟨fuel', rest, hrest, rfl⟩ := pages_of_next h hlist rfl
  exact ⟨fuel', rest, _, hrest, rfl⟩

/-- Two pages before it, a key without the prefix is not hidden any more. -/
theorem not_listsExactly_of_late (hm : Due K pre delimiter s m) (hm' : Due K pre delimiter s m')
    (hmark : mark pre delimiter m ≠ mark pre delimiter m') (hin : InRange pre m) (hin' : InRange pre m')
    (hap : ¬ Under pre delimiter s m)
    (hap' : ¬ Under pre delimiter s m')
    (hk : InRange pre k) (hnot : ¬ pre <+: k) (hhid : Under pre delimiter s k)
    (ho : [m, m', k].Pairwise (· < ·)) : ¬ ListsExactly (.ofKeys [m, m', k] ho) pre delimiter s := by
  rintro ⟨fuel, pages, hfollow, hexact⟩
  obtain ⟨cp, hcp⟩ := ne_none_iff_exists'.1 hhid.2
  have hslot : virtualPrefix k pre delimiter = some cp := hhid.1.trans hcp
  -- Neither `m` nor `m'` falls under the common prefix of `s`, so that they do not hide `k`.
  have hfree : ∀ x, ¬ Under pre delimiter s x → ¬ Under pre delimiter x k :=
    fun x hx h => hx ⟨h.1.symm.trans hhid.1, hhid.2⟩
  have hmm : ¬ Under pre delimiter m m' := by
    intro h
    obtain ⟨cq, hcq⟩ := ne_none_iff_exists'.1 h.2
    exact hmark (by rw [mark_common hcq, mark_common (h.1.trans hcq)])
  have hm'k : m' < k := (pairwise_cons.1 (pairwise_cons.1 ho).2).1 k (by simp)
  have hpast : (Table.ofKeys [m, m', k] ho).past 0 pre s = [(Row.plain m).listed, (Row.plain m').listed, (Row.plain k).listed] :=
    Table.past_ofKeys ho (by simpa using ⟨⟨hin, hm.behind⟩, ⟨hin', hm'.behind⟩, hk, hm'.behind.trans hm'k⟩)
  have hpast₂ : (Table.ofKeys [m, m', k] ho).past 0 pre m = [(Row.plain m').listed, (Row.plain k).listed] :=
    Table.past_lastKey (show _ = [(Row.plain m).listed] ++ [(Row.plain m').listed, (Row.plain k).listed] from hpast)
  have hpast₃ : (Table.ofKeys [m, m', k] ho).past 0 pre m' = [(Row.plain k).listed] :=
    Table.past_lastKey (show _ = [(Row.plain m').listed] ++ [(Row.plain k).listed] from hpast₂)
  have hq₂ : parseListRequest ⟨pre, delimiter, some 1, s, m⟩ = some ⟨pre, delimiter, 1, m⟩ :=
    parse_token parse_firstQuery (ne_nil_of_lt hm.behind)
  have hq₃ : parseListRequest ⟨pre, delimiter, some 1, s, m'⟩ = some ⟨pre, delimiter, 1, m'⟩ :=
    parse_token parse_firstQuery (ne_nil_of_lt hm'.behind)
  obtain ⟨fuel₂, rest₂, page₁, hfollow₂, rfl⟩ := pages_two hfollow parse_firstQuery hpast hap hap' hmm
  obtain ⟨fuel₃, rest₃, page₂, hfollow₃, rfl⟩ := pages_two hfollow₂ hq₂ hpast₂ hmm (hfree m hap) (hfree m' hap')
  have hlist₃ : listObjectsV2 (.ofKeys [m, m', k] ho) 0 ⟨pre, delimiter, some 1, s, m'⟩ =
      some (pageOf ⟨pre, delimiter, 1, m'⟩ (Row.plain k).listed) := by
    rw [listObjectsV2_eq hq₃, hpast₃, foldList_single Nat.one_pos (hfree m' hap')]
  have hlast := pages_of_last hfollow₃ hlist₃ (pageOf_spec _ _).2.2
  -- The last page has the common prefix, under which no key is due.
  obtain ⟨r, hr, hmeant, hrslot⟩ := hexact.commons cp (by simp [hlast, allCommons, pageOf, Row.plain, Row.listed, hslot])
  obtain ⟨x, hx, rfl⟩ := mem_map.1 hr
  have hxhid : Under pre delimiter s x := ⟨hrslot.trans hcp.symm, hhid.2⟩
  simp only [mem_cons, not_mem_nil, or_false] at hx
  rcases hx with rfl | rfl | rfl
  · exact hap hxhid
  · exact hap' hxhid
  · exact hnot hmeant.has

theorem sound_of_listsExactly (h : ∀ t : Table, (∀ r ∈ t.rows, r.live 0 = true → K r.key) → ListsExactly t pre delimiter s) :
    Sound K pre delimiter s := by
  have hsingle : ∀ k, K k → ListsExactly (.ofKeys [k] (pairwise_singleton _ k)) pre delimiter s := fun k hk =>
    h _ (Table.forall_ofKeys.2 fun x hx _ => mem_singleton.1 hx ▸ hk)
  have hinside : ∀ k, Due K pre delimiter s k → InRange pre k := fun k hk =>
    not_not.1 fun hout => not_listsExactly_of_outside hk hout (hsingle k hk.key)
  have hapart : ∀ k, Due K pre delimiter s k → ¬ Under pre delimiter s k := fun k hk hhid =>
    not_listsExactly_of_hidden hk (hinside k hk) hhid (hsingle k hk.key)
  refine ⟨hinside, hapart, fun k hk hlt hrange hnot => ?_⟩
  have hhid : Under pre delimiter s k :=
    not_not.1 fun hn => not_listsExactly_of_extra hrange hlt hnot hn (hsingle k hk)
  have hless : ∀ m m', Due K pre delimiter s m → Due K pre delimiter s m' → m < m' → mark pre delimiter m = mark pre delimiter m' := by
    intro m m' hm hm' hmm'
    have hm'k : m' < k := lt_of_not_isPrefix hm'.has hrange.1 hnot
    have ho : [m, m', k].Pairwise (· < ·) := by
      simpa using ⟨⟨hmm', hmm'.trans hm'k⟩, hm'k⟩
    by_contra hne
    refine not_listsExactly_of_late hm hm' hne (hinside m hm) (hinside m' hm') (hapart m hm) (hapart m' hm') hrange hnot
      hhid ho (h _ (Table.forall_ofKeys.2 ?_))
    simpa using ⟨fun _ => hm.key, fun _ => hm'.key, fun _ => hk⟩
  refine ⟨hhid, fun m m' hm hm' => ?_⟩
  rcases lt_trichotomy m m' with hlt | rfl | hlt
  · exact hless m m' hm hm' hlt
  · rfl
  · exact (hless m' m hm' hm hlt).symm

/-! ## The results -/

/-- **Listing.** The pages of every table with keys of a family are exact exactly when the family is
sound for the prefix, the delimiter and the start. -/
theorem listing_exact_iff (K : Text → Prop) (pre delimiter s : Text) :
    (∀ (t : Table) (now : Nat) (maxKeys : Int), 1 ≤ maxKeys → (∀ r ∈ t.rows, r.live now = true → K r.key) →
      ∃ fuel pages, follow t now fuel ⟨pre, delimiter, some maxKeys, s, []⟩ = some pages ∧
        Exact t now pre delimiter s pages) ↔ Sound K pre delimiter s := by
  constructor
  · intro h
    exact sound_of_listsExactly fun t hK => h t 0 1 (by decide) hK
  · intro h t now maxKeys hmax hK
    have hq : parseListRequest ⟨pre, delimiter, some maxKeys, s, []⟩ = some ⟨pre, delimiter, min maxKeys.toNat 1000, s⟩ := by
      have hneg : ¬ maxKeys < 0 := by omega
      simp [parseListRequest, hneg]
    have hpos : 0 < min maxKeys.toNat 1000 := by omega
    exact Sound.exact h hq hpos hK

/-- `a/x` has not the prefix `b/`; the first page skips `b/a/1` as if `b/a/` had been reported. -/
theorem listing_skips : ¬ ∀ (t : Table) (now : Nat) (pre delimiter s : Text) (maxKeys : Int), 1 ≤ maxKeys →
    ∃ fuel pages, follow t now fuel ⟨pre, delimiter, some maxKeys, s, []⟩ = some pages ∧
      Exact t now pre delimiter s pages := by
  intro h
  have hdue : Due (fun _ => True) ['b', '/'] ['/'] ['a', '/', 'x'] ['b', '/', 'a', '/', '1'] := by
    refine ⟨trivial, by decide, by decide, fun hout => ?_⟩
    exact absurd hout.1 (by decide)
  exact not_listsExactly_of_hidden hdue (by decide) (by decide) (h _ 0 _ _ _ 1 (by decide))

end Pgvs3.Listing
