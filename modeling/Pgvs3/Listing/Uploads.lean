import Pgvs3.Data.Groups
import Pgvs3.Listing.Exact
import Pgvs3.Listing.PrefixEnd
/-!
# Listing multipart uploads page by page

An upload whose common prefix has been reported is passed over, and the markers stay at the last
upload that was reported. If all uploads of a page are passed over and there are more, the next page
starts where this one did (`folded_page_repeats`): exactly if more uploads than fit on a page follow
the first one of a common prefix (`Fits`).

Upload ids are texts in the order of the database's collation: here they are numbers, and 0 is the
empty text.
-/

namespace Pgvs3.Listing

open List Option Data

/-- `write.go:1178-1182`. -/
structure Upload where
  key : Text
  id : Nat
  initiated : Nat
deriving DecidableEq, Repr

/-- `key-marker` and `upload-id-marker`. -/
structure Marker where
  key : Text
  id : Nat
deriving DecidableEq, Repr

def Marker.first : Marker := ⟨[], 0⟩

def Upload.marker (u : Upload) : Marker := ⟨u.key, u.id⟩

def Upload.Behind (m : Marker) (u : Upload) : Prop := m.key < u.key ∨ (u.key = m.key ∧ m.id < u.id)

instance (m : Marker) (u : Upload) : Decidable (u.Behind m) := inferInstanceAs (Decidable (_ ∨ _))

structure Uploads where
  rows : List Upload
  ordered : rows.Pairwise fun u v => v.Behind u.marker
  ids : ∀ u ∈ rows, 0 < u.id

/-- `write.go:1184-1213`. -/
def Uploads.listUploads (t : Uploads) (pre bound : Text) (m : Marker) (max : Nat) : List Upload × Bool :=
  let out := (t.rows.filter fun u => decide (pre ≤ u.key ∧ u.key < bound ∧ u.Behind m)).take (max + 1)
  (out.take max, max < out.length)

structure UploadPage where
  uploads : List Upload
  commonPrefixes : List Text
  truncated : Bool
  next : Marker
deriving DecidableEq, Repr

def UploadPage.count (p : UploadPage) : Nat := p.uploads.length + p.commonPrefixes.length

structure UploadQuery where
  pre : Text
  delimiter : Text
  maxUploads : Option Int
deriving DecidableEq, Repr

/-- The common prefix of the key marker, if it has the prefix. -/
def markerPrefix (pre delimiter key : Text) : Option Text := if pre.isPrefixOf key then virtualPrefix key pre delimiter else none

/-- The loop over the uploads of a page; `next` is the last one that was reported. -/
def foldUploads (pre delimiter : Text) (max : Nat) : List Upload → List Text → UploadPage → UploadPage
  | [], _, page => page
  | u :: us, seen, page =>
    match virtualPrefix u.key pre delimiter with
    | some cp =>
      if cp ∈ seen then foldUploads pre delimiter max us seen page
      else if max ≤ page.count then { page with truncated := true }
      else foldUploads pre delimiter max us (cp :: seen) { page with commonPrefixes := page.commonPrefixes ++ [cp], next := u.marker }
    | none =>
      if max ≤ page.count then { page with truncated := true }
      else foldUploads pre delimiter max us seen { page with uploads := page.uploads ++ [u], next := u.marker }

/-- `none`: `invalid max-uploads`. -/
def parseMax (q : UploadQuery) : Option Nat :=
  if q.maxUploads.any (· < 0) then none else some (min (q.maxUploads.getD 1000).toNat 1000)

/-- `s3/object.go:1234-1302`. -/
def listMultipartUploads (t : Uploads) (q : UploadQuery) (m : Marker) : Option UploadPage :=
  (parseMax q).map fun max =>
    let (uploads, truncated) := t.listUploads q.pre (prefixEnd q.pre) m max
    let page := foldUploads q.pre q.delimiter max uploads (markerPrefix q.pre q.delimiter m.key).toList ⟨[], [], truncated, m⟩
    if page.truncated then page else { page with next := .first }

/-- A client follows the markers as long as there are more; the markers of each request with its
page. -/
def followUploads (t : Uploads) (q : UploadQuery) : Nat → Marker → Option (List (Marker × UploadPage))
  | 0, _ => none
  | fuel + 1, m =>
    match listMultipartUploads t q m with
    | none => none
    | some page => if page.truncated then (followUploads t q fuel page.next).map ((m, page) :: ·) else some [(m, page)]

/-! ## Exact listings -/

def allUploads (pages : List (Marker × UploadPage)) : List Upload := pages.flatMap (·.2.uploads)

def allPrefixes (pages : List (Marker × UploadPage)) : List Text := pages.flatMap (·.2.commonPrefixes)

/-- No page repeats its markers; every upload under the prefix is reported once, itself or under one
common prefix, and nothing else is. -/
structure UploadsExact (t : Uploads) (pre delimiter : Text) (pages : List (Marker × UploadPage)) : Prop where
  progress : ∀ x ∈ pages, x.2.truncated = true → x.2.next ≠ x.1
  once : ∀ u ∈ t.rows, pre <+: u.key → (allUploads pages).count u + (allPrefixes pages).countP (·.isPrefixOf u.key) = 1
  uploads : ∀ u ∈ allUploads pages, u ∈ t.rows ∧ pre <+: u.key
  prefixes : ∀ cp ∈ allPrefixes pages, ∃ u ∈ t.rows, pre <+: u.key ∧ virtualPrefix u.key pre delimiter = some cp

def ListsUploads (t : Uploads) (q : UploadQuery) : Prop :=
  ∃ fuel pages, followUploads t q fuel .first = some pages ∧ UploadsExact t q.pre q.delimiter pages

def Uploads.inRange (t : Uploads) (pre : Text) : List Upload := t.rows.filter fun u => decide (InRange pre u.key)

def Upload.group (pre delimiter : Text) (u : Upload) : Option Text := virtualPrefix u.key pre delimiter

/-- The query reaches every upload under the prefix, or another one of its common prefix. -/
def Reached (t : Uploads) (pre delimiter : Text) : Prop :=
  ∀ u ∈ t.rows, pre <+: u.key →
    ∃ v ∈ t.inRange pre, v = u ∨ ((u.group pre delimiter).isSome ∧ v.group pre delimiter = u.group pre delimiter)

instance (t : Uploads) (pre delimiter : Text) : Decidable (Reached t pre delimiter) :=
  inferInstanceAs (Decidable (∀ u ∈ t.rows, _))

/-- If a full page of uploads of one common prefix follows the first of them, there is no upload
behind that page. -/
def FitsAt (pre delimiter : Text) (max : Nat) (done : List Upload) (u : Upload) (later : List Upload) : Prop :=
  (u.group pre delimiter).isSome → (∀ v ∈ done, v.group pre delimiter ≠ u.group pre delimiter) →
    (∀ v ∈ later.take max, v.group pre delimiter = u.group pre delimiter) → later.length ≤ max

instance (pre delimiter : Text) (max : Nat) (done : List Upload) (u : Upload) (later : List Upload) :
    Decidable (FitsAt pre delimiter max done u later) := inferInstanceAs (Decidable (_ → _))

def Fits (t : Uploads) (pre delimiter : Text) (max : Nat) : Prop :=
  ∀ done u later, t.inRange pre = done ++ u :: later → FitsAt pre delimiter max done u later

instance (t : Uploads) (pre delimiter : Text) (max : Nat) : Decidable (Fits t pre delimiter max) :=
  decidable_of_iff (∀ i : Fin (t.inRange pre).length,
      FitsAt pre delimiter max ((t.inRange pre).take i) ((t.inRange pre).get i) ((t.inRange pre).drop (i + 1))) <| by
    constructor
    · intro h done u later hsplit
      have hi : done.length < (t.inRange pre).length := by simp [hsplit]
      have := h ⟨done.length, hi⟩
      simpa [hsplit] using this
    · intro h i
      refine h _ _ _ ?_
      rw [get_eq_getElem, getElem_cons_drop, take_append_drop]

variable {u : Upload} {done us : List Upload} {n : Nat}

/-! ## The uploads behind a marker -/

variable {t : Uploads} {pre delimiter : Text} {later : List Upload}

def Uploads.rest (t : Uploads) (pre : Text) (m : Marker) : List Upload := (t.inRange pre).filter fun u => decide (u.Behind m)

theorem listUploads_eq (m : Marker) (max : Nat) :
    t.listUploads pre (prefixEnd pre) m max = ((t.rest pre m).take max, decide (max < (t.rest pre m).length)) := by
  have hfilter : (t.rows.filter fun u => decide (pre ≤ u.key ∧ u.key < prefixEnd pre ∧ u.Behind m)) = t.rest pre m := by
    rw [Uploads.rest, Uploads.inRange, List.filter_filter]
    refine filter_congr fun u _ => ?_
    rw [← Bool.decide_and, decide_eq_decide, InRange]
    exact ⟨fun h => ⟨h.2.2, h.1, h.2.1⟩, fun h => ⟨h.2.1, h.2.2, h.1⟩⟩
  simp only [Uploads.listUploads, hfilter, take_take, length_take, Prod.mk.injEq]
  refine ⟨by rw [Nat.min_eq_left (Nat.le_succ max)], decide_eq_decide.2 ?_⟩
  omega

theorem inRange_ordered : (t.inRange pre).Pairwise fun u v => v.Behind u.marker := t.ordered.filter _

theorem rest_first : t.rest pre .first = t.inRange pre := by
  refine filter_eq_self.2 fun u hu => decide_eq_true ?_
  have hid := t.ids u (mem_filter.1 hu).1
  cases hk : u.key with
  | nil => exact .inr ⟨hk, hid⟩
  | cons c k => exact .inl (by rw [hk]; exact nil_lt_cons c k)

theorem Upload.Behind.not_symm {v : Upload} (h : v.Behind u.marker) : ¬ u.Behind v.marker := by
  rcases h with hlt | ⟨heq, hid⟩
  · rintro (hlt' | ⟨heq', -⟩)
    · exact lt_asymm hlt hlt'
    · exact hlt.ne heq'
  · rintro (hlt' | ⟨-, hid'⟩)
    · exact hlt'.ne heq
    · exact Nat.lt_asymm hid hid'

theorem rest_of_split (h : t.inRange pre = done ++ u :: later) : t.rest pre u.marker = later := by
  have ho : (t.inRange pre).Pairwise fun u v => v.Behind u.marker := inRange_ordered
  rw [h] at ho
  obtain ⟨-, hlater, hcross⟩ := pairwise_append.1 ho
  rw [Uploads.rest, h, filter_append, filter_eq_nil_iff.2, nil_append, filter_cons_of_neg, filter_eq_self.2]
  · exact fun v hv => decide_eq_true ((pairwise_cons.1 hlater).1 v hv)
  · have hself : ¬ u.Behind u.marker := fun hb => hb.not_symm hb
    simpa using hself
  · intro v hv
    simpa using (hcross v hv u mem_cons_self).not_symm

theorem grouped_of_prefix (ho : us.Pairwise fun u v => v.Behind u.marker) (hp : ∀ u ∈ us, pre <+: u.key) :
    Grouped (Upload.group pre delimiter) (fun u v => u.key ≤ v.key) us := by
  refine ⟨ho.imp fun h => ?_, fun x hx y hy z hz hxy hyz heq hsome => ?_⟩
  · rcases h with hlt | ⟨heq, -⟩
    · exact hlt.le
    · exact heq.symm.le
  · obtain ⟨cp, hcp⟩ := isSome_iff_exists.1 hsome
    have hcpx : cp ≤ y.key := (le_of_isPrefix (isPrefix_of_virtualPrefix (hp x hx) hcp)).trans hxy
    rw [hcp]
    exact virtualPrefix_between (hp z hz) (heq.symm.trans hcp) hcpx hyz

/-! ## One page -/

variable {max : Nat}

/-- A page reports the uploads that begin a group, and the common prefixes of those that have one.
-/
theorem foldUploads_eq {seen : List Text} {page : UploadPage} (before : Option Upload)
    (hg : Grouped (Upload.group pre delimiter) (fun u v => u.key ≤ v.key) (before.toList ++ us))
    (hseen : ∀ u ∈ us, ∀ cp, u.group pre delimiter = some cp → (cp ∈ seen ↔ before.bind (Upload.group pre delimiter) = some cp))
    (hmax : page.count + us.length ≤ max) :
    let hs := heads (Upload.group pre delimiter) (before.bind (Upload.group pre delimiter)) us
    foldUploads pre delimiter max us seen page =
      ⟨page.uploads ++ hs.filter (fun u => (u.group pre delimiter).isNone), page.commonPrefixes ++
        hs.filterMap (Upload.group pre delimiter), page.truncated,
        hs.getLast?.elim page.next Upload.marker⟩ := by
  induction us generalizing seen page before with
  | nil => simp [foldUploads, heads]
  | cons u us ih =>
    have hgu : Grouped (Upload.group pre delimiter) (fun u v => u.key ≤ v.key) ((some u).toList ++ us) :=
      hg.sublist (sublist_append_right _ _)
    -- a common prefix from before does not come back behind another one
    have hback : ∀ v ∈ us, ∀ cp, v.group pre delimiter = some cp → before.bind (Upload.group pre delimiter) = some cp →
        u.group pre delimiter = some cp := by
      intro v hv cp hvcp hbcp
      obtain ⟨b, rfl, hb⟩ := bind_eq_some_iff.1 hbcp
      obtain ⟨hle, hrest⟩ := pairwise_cons.1 hg.ordered
      have hvu : u.key ≤ v.key := (pairwise_cons.1 hrest).1 v hv
      have hbu := hg.between b mem_cons_self u (by simp) v (by simp [hv]) (hle u mem_cons_self) hvu (hb.trans hvcp.symm) (by rw [hb]; rfl)
      exact hbu.trans hb
    have hlen : page.count + (us.length + 1) ≤ max := hmax
    have hroom : ¬ max ≤ page.count := by omega
    have hlast : ∀ (hs : List Upload) (n : Marker), (u :: hs).getLast?.elim n Upload.marker =
        hs.getLast?.elim u.marker Upload.marker := by
      intro hs n
      rw [getLast?_cons]
      cases hs.getLast? <;> rfl
    cases hvp : u.group pre delimiter with
    | none =>
      have hnew : ∀ v ∈ us, ∀ cp, v.group pre delimiter = some cp →
          (cp ∈ seen ↔ (some u).bind (Upload.group pre delimiter) = some cp) := by
        intro v hv cp hcp
        refine iff_of_false (fun hmem => ?_) (by rw [bind_some, hvp]; exact (by simp))
        have := hback v hv cp hcp ((hseen v (mem_cons_of_mem _ hv) cp hcp).1 hmem)
        rw [hvp] at this
        cases this
      have hstep : foldUploads pre delimiter max (u :: us) seen page =
          foldUploads pre delimiter max us seen { page with uploads := page.uploads ++ [u], next := u.marker } := by
        rw [foldUploads, show virtualPrefix u.key pre delimiter = none from hvp]
        exact if_neg hroom
      rw [hstep, ih (some u) hgu hnew (by simp only [UploadPage.count, length_append, length_singleton] at hlen ⊢; omega)]
      simp only [heads, bind_some, hvp, isSome_none, Bool.false_eq_true, false_and, if_false, hlast,
        filter_cons, isNone_none, if_true, filterMap_cons_none, append_assoc, singleton_append]
    | some cp =>
      by_cases hin : cp ∈ seen
      · have hbefore := (hseen u mem_cons_self cp hvp).1 hin
        have hstep : foldUploads pre delimiter max (u :: us) seen page = foldUploads pre delimiter max us seen page := by
          rw [foldUploads, show virtualPrefix u.key pre delimiter = some cp from hvp]
          exact if_pos hin
        have hnew : ∀ v ∈ us, ∀ cp', v.group pre delimiter = some cp' →
            (cp' ∈ seen ↔ (some u).bind (Upload.group pre delimiter) = some cp') := by
          intro v hv cp' hcp'
          rw [bind_some, hvp, ← hbefore]
          exact hseen v (mem_cons_of_mem _ hv) cp' hcp'
        rw [hstep, ih (some u) hgu hnew (by omega)]
        simp [heads, hvp, hbefore]
      · have hbefore : before.bind (Upload.group pre delimiter) ≠ some cp := fun hb => hin ((hseen u mem_cons_self cp hvp).2 hb)
        have hstep : foldUploads pre delimiter max (u :: us) seen page =
            foldUploads pre delimiter max us (cp :: seen)
              { page with commonPrefixes := page.commonPrefixes ++ [cp], next := u.marker } := by
          rw [foldUploads, show virtualPrefix u.key pre delimiter = some cp from hvp]
          simp [if_neg hin, if_neg hroom]
        have hnew : ∀ v ∈ us, ∀ cp', v.group pre delimiter = some cp' →
            (cp' ∈ cp :: seen ↔ (some u).bind (Upload.group pre delimiter) = some cp') := by
          intro v hv cp' hcp'
          rw [bind_some, hvp, mem_cons, some.injEq]
          refine ⟨fun hmem => hmem.elim Eq.symm fun hmem => ?_, fun heq => .inl heq.symm⟩
          have := hback v hv cp' hcp' ((hseen v (mem_cons_of_mem _ hv) cp' hcp').1 hmem)
          rw [hvp] at this
          exact some.inj this
        rw [hstep, ih (some u) hgu hnew (by simp only [UploadPage.count, length_append, length_singleton] at hlen ⊢; omega)]
        simp only [heads, bind_some, hvp, isSome_some, true_and, if_neg (fun h => hbefore (Eq.symm h)), hlast,
          filter_cons, isNone_some, Bool.false_eq_true, if_false, filterMap_cons_some hvp, append_assoc,
          singleton_append]

/-! ## From page to page -/

variable {q : UploadQuery}

def markerOf (before : Option Upload) : Marker := before.elim .first Upload.marker

/-- The listing stands behind an upload that it has reported, or at the beginning, and these uploads
are left. -/
def Stands (t : Uploads) (pre delimiter : Text) (before : Option Upload) (later : List Upload) : Prop :=
  match before with
  | none => later = t.inRange pre
  | some m => ∃ done, t.inRange pre = done ++ m :: later ∧
      ¬ ((m.group pre delimiter).isSome ∧ m.group pre delimiter = lastGroup (Upload.group pre delimiter) none done)

/-- The query returns uploads with the prefix only. -/
def Within (t : Uploads) (pre : Text) : Prop := ∀ u ∈ t.rows, InRange pre u.key → pre <+: u.key

theorem Within.inRange (hw : Within t q.pre) (hu : u ∈ t.inRange q.pre) : q.pre <+: u.key := by
  obtain ⟨hmem, hr⟩ := mem_filter.1 hu
  exact hw u hmem (of_decide_eq_true hr)

theorem grouped_inRange (hw : Within t q.pre) : Grouped (Upload.group q.pre q.delimiter) (fun u v => u.key ≤ v.key) (t.inRange q.pre) :=
  grouped_of_prefix inRange_ordered fun _ hu => hw.inRange hu

theorem Stands.rest {before : Option Upload} (h : Stands t q.pre q.delimiter before later) : t.rest q.pre (markerOf before) = later := by
  cases before with
  | none => rw [show later = _ from h]; exact rest_first
  | some m =>
    obtain ⟨done, hsplit, -⟩ := h
    exact rest_of_split hsplit

variable {before : Option Upload} {m : Upload}

theorem Stands.sublist (h : Stands t q.pre q.delimiter before later) : (before.toList ++ later).Sublist (t.inRange q.pre) := by
  cases before with
  | none => rw [show later = _ from h]; exact List.Sublist.refl _
  | some m =>
    obtain ⟨done, hsplit, -⟩ := h
    rw [hsplit]
    exact sublist_append_right _ _

theorem Stands.suffix (h : Stands t q.pre q.delimiter before later) : later <:+ t.inRange q.pre := by
  cases before with
  | none =>
    obtain rfl : later = t.inRange q.pre := h
    exact suffix_refl _
  | some m =>
    obtain ⟨done, hsplit, -⟩ := h
    exact ⟨done ++ [m], by rw [hsplit, append_assoc]; rfl⟩

theorem virtualPrefix_nil (pre delimiter : Text) (h : pre.isPrefixOf [] = true) : virtualPrefix [] pre delimiter = none := by
  have hpre : pre = [] := by simpa using h
  subst hpre
  unfold virtualPrefix
  split
  · rfl
  · next hd =>
    cases hu : upTo delimiter (trimPre [] []) with
    | none => rfl
    | some x =>
      have hx : x <+: [] := upTo_isPrefix hu
      have hlen := length_le_of_upTo hu
      rw [prefix_nil.1 hx] at hlen
      exact absurd (length_eq_zero_iff.1 (Nat.le_zero.1 hlen)) hd

def reported (q : UploadQuery) (max : Nat) (before : Option Upload) (later : List Upload) : List Upload :=
  heads (Upload.group q.pre q.delimiter) (before.bind (Upload.group q.pre q.delimiter)) (later.take max)

def pageAt (q : UploadQuery) (max : Nat) (before : Option Upload) (later : List Upload) : UploadPage where
  uploads := (reported q max before later).filter fun u => (u.group q.pre q.delimiter).isNone
  commonPrefixes := (reported q max before later).filterMap (Upload.group q.pre q.delimiter)
  truncated := decide (max < later.length)
  next := if max < later.length then (reported q max before later).getLast?.elim (markerOf before) Upload.marker else .first

theorem page_eq (hw : Within t q.pre) (hmax : parseMax q = some max) (h : Stands t q.pre q.delimiter before later) :
    listMultipartUploads t q (markerOf before) = some (pageAt q max before later) := by
  have hg : Grouped (Upload.group q.pre q.delimiter) (fun u v => u.key ≤ v.key) (before.toList ++ later.take max) :=
    (grouped_inRange hw).sublist (((take_sublist max later).append_left _).trans h.sublist)
  have hseen : ∀ u ∈ later.take max, ∀ cp, u.group q.pre q.delimiter = some cp →
      (cp ∈ (markerPrefix q.pre q.delimiter (markerOf before).key).toList ↔ before.bind (Upload.group q.pre q.delimiter) = some cp) := by
    intro u _ cp _
    have hmark : markerPrefix q.pre q.delimiter (markerOf before).key = before.bind (Upload.group q.pre q.delimiter) := by
      cases before with
      | none =>
        show (if q.pre.isPrefixOf [] then virtualPrefix [] q.pre q.delimiter else none) = none
        split
        · next hp => exact virtualPrefix_nil _ _ hp
        · rfl
      | some m =>
        have hm : m ∈ t.inRange q.pre := h.sublist.subset mem_cons_self
        exact if_pos (List.isPrefixOf_iff_prefix.2 (hw.inRange hm))
    rw [hmark]
    exact mem_toList
  have hroom : (⟨[], [], decide (max < later.length), markerOf before⟩ : UploadPage).count + (later.take max).length ≤ max := by
    simp [UploadPage.count]
  have hfold := foldUploads_eq before hg hseen hroom
  simp only [listMultipartUploads, hmax, map_some, listUploads_eq, h.rest, some.injEq]
  rw [hfold]
  by_cases hmore : max < later.length
  · simp [hmore, pageAt, reported]
  · simp [hmore, pageAt, reported]

theorem Stands.next (h : Stands t q.pre q.delimiter before later) (hne : reported q max before later ≠ []) :
    ∃ ys m later', later = ys ++ m :: later' ∧ ys.length < max ∧ Stands t q.pre q.delimiter (some m) later' ∧
      (reported q max before later).getLast? = some m ∧
      heads (Upload.group q.pre q.delimiter) (before.bind (Upload.group q.pre q.delimiter)) later =
        reported q max before later ++ heads (Upload.group q.pre q.delimiter) (m.group q.pre q.delimiter) later' := by
  obtain ⟨ys, m, zs, htake, hheads, htail, hbegin⟩ := heads_last hne
  have hlater : later = ys ++ m :: (zs ++ later.drop max) := by
    rw [← cons_append, ← append_assoc, ← htake, take_append_drop]
  have hlen : ys.length < max := by
    have := congrArg List.length htake
    simp only [length_take, length_append, length_cons] at this
    omega
  refine ⟨ys, m, zs ++ later.drop max, hlater, hlen, ?_, ?_, ?_⟩
  · cases before with
    | none =>
      have hl : later = t.inRange q.pre := h
      exact ⟨ys, hl ▸ hlater, hbegin⟩
    | some b =>
      obtain ⟨done, hsplit, -⟩ := h
      refine ⟨done ++ b :: ys, ?_, ?_⟩
      · rw [hsplit, append_assoc, cons_append, ← hlater]
      · have hlast : lastGroup (Upload.group q.pre q.delimiter) none (done ++ b :: ys) =
            lastGroup (Upload.group q.pre q.delimiter) (b.group q.pre q.delimiter) ys := by
          rw [lastGroup_append, lastGroup_cons]
        rw [hlast]
        exact hbegin
  · rw [reported, hheads]
    exact getLast?_concat
  · conv_lhs => rw [hlater]
    rw [heads_append, reported, hheads, append_assoc]
    congr 1
    rw [heads, if_neg hbegin]
    rfl

/-- A page that reports nothing with more behind it has only uploads of one common prefix. -/
theorem Stands.stuck (hpos : 0 < max) (hmore : max < later.length) (hnil : reported q max before later = []) :
    ∃ m, before = some m ∧ (m.group q.pre q.delimiter).isSome ∧
      ∀ v ∈ later.take max, v.group q.pre q.delimiter = m.group q.pre q.delimiter := by
  have hall := heads_eq_nil_iff.1 hnil
  obtain ⟨u, us, hu⟩ : ∃ u us, later.take max = u :: us := by
    refine exists_cons_of_ne_nil (ne_nil_of_length_pos ?_)
    rw [length_take]
    omega
  obtain ⟨hsome, heq⟩ := hall u (hu ▸ mem_cons_self)
  cases before with
  | none =>
    rw [heq] at hsome
    cases hsome
  | some m =>
    rw [heq] at hsome
    exact ⟨m, rfl, hsome, fun v hv => (hall v hv).2⟩

theorem Stands.first (hw : Within t q.pre) (h : Stands t q.pre q.delimiter (some m) later) (hsome : (m.group q.pre q.delimiter).isSome) :
    ∃ done, t.inRange q.pre = done ++ m :: later ∧ ∀ v ∈ done, v.group q.pre q.delimiter ≠ m.group q.pre q.delimiter := by
  obtain ⟨done, hsplit, hbegin⟩ := h
  have hg := grouped_inRange hw
  rw [hsplit] at hg
  exact ⟨done, hsplit, hg.group_ne hsome fun heq => hbegin ⟨hsome, heq⟩⟩

theorem Stands.behind (h : Stands t q.pre q.delimiter before later) (hm : m ∈ later) : m.marker ≠ markerOf before := by
  rw [← h.rest] at hm
  have hb : m.Behind (markerOf before) := of_decide_eq_true (mem_filter.1 hm).2
  intro heq
  rw [← heq] at hb
  exact hb.not_symm hb

section

variable (hw : Within t q.pre)
include hw

theorem followUploads_last (hmax : parseMax q = some max) (fuel : Nat)
    (h : Stands t q.pre q.delimiter before later) (hall : later.length ≤ max) :
    followUploads t q (fuel + 1) (markerOf before) = some [(markerOf before, pageAt q max before later)] := by
  rw [followUploads, page_eq hw hmax h]
  exact if_neg (by simp [pageAt, hall])

theorem followUploads_more (hmax : parseMax q = some max) (fuel : Nat)
    (h : Stands t q.pre q.delimiter before later) (hmore : max < later.length) :
    followUploads t q (fuel + 1) (markerOf before) =
      (followUploads t q fuel ((reported q max before later).getLast?.elim (markerOf before) Upload.marker)).map
        ((markerOf before, pageAt q max before later) :: ·) := by
  rw [followUploads, page_eq hw hmax h]
  simp [pageAt, hmore]

/-- The pages from where the listing stands report the first uploads of their groups, if the uploads
fit. -/
theorem followUploads_of_fits (hmax : parseMax q = some max) (hpos : 0 < max)
    (hfit : Fits t q.pre q.delimiter max) (hn : later.length ≤ n)
    (h : Stands t q.pre q.delimiter before later) :
    ∃ pages, followUploads t q (n + 1) (markerOf before) = some pages ∧ (∀ x ∈ pages, x.2.truncated = true → x.2.next ≠ x.1) ∧
      allUploads pages = (heads (Upload.group q.pre q.delimiter) (before.bind (Upload.group q.pre q.delimiter)) later).filter
        (fun u => (u.group q.pre q.delimiter).isNone) ∧
      allPrefixes pages = (heads (Upload.group q.pre q.delimiter) (before.bind (Upload.group q.pre q.delimiter)) later).filterMap
        (Upload.group q.pre q.delimiter) := by
  induction n using Nat.strong_induction_on generalizing before later with
  | _ n ih =>
  by_cases hmore : max < later.length
  · have hne : reported q max before later ≠ [] := by
      intro hnil
      obtain ⟨m, rfl, hsome, hall⟩ := Stands.stuck hpos hmore hnil
      obtain ⟨done, hsplit, hfirst⟩ := h.first hw hsome
      exact absurd (hfit done m later hsplit hsome hfirst hall) (Nat.not_le.2 hmore)
    obtain ⟨ys, m, later', hlater, -, hnext, hlast, hheads⟩ := h.next hne
    have hlen : ys.length + (later'.length + 1) = later.length := by simp [hlater]
    obtain ⟨k, rfl⟩ : ∃ k, n = k + 1 := ⟨n - 1, by omega⟩
    obtain ⟨pages, hpages, hprog, hups, hcps⟩ := ih k (Nat.lt_succ_self k) (by omega) hnext
    refine ⟨(markerOf before, pageAt q max before later) :: pages, ?_, ?_, ?_, ?_⟩
    · rw [followUploads_more hw hmax _ h hmore, hlast]
      exact congrArg (Option.map _) hpages
    · refine forall_mem_cons.2 ⟨fun _ => ?_, hprog⟩
      simp only [pageAt, hmore, if_true, hlast, elim_some]
      exact h.behind (by simp [hlater])
    · rw [hheads, filter_append]
      exact congrArg _ hups
    · rw [hheads, filterMap_append]
      exact congrArg _ hcps
  · have hall := Nat.le_of_not_lt hmore
    refine ⟨[(markerOf before, pageAt q max before later)], followUploads_last hw hmax n h hall, by simp [pageAt, hall], ?_, ?_⟩
    · simp [allUploads, pageAt, reported, take_of_length_le hall]
    · simp [allPrefixes, pageAt, reported, take_of_length_le hall]

/-- A full page of one common prefix behind the first upload of it, and more behind that page: the
listing does not end. -/
theorem followUploads_stuck (hmax : parseMax q = some max) {later₀ : List Upload}
    (hsplit : t.inRange q.pre = done ++ u :: later₀) (hsome : (u.group q.pre q.delimiter).isSome)
    (hall : ∀ v ∈ later₀.take max, v.group q.pre q.delimiter = u.group q.pre q.delimiter) (hlong : max < later₀.length)
    (fuel : Nat) (h : Stands t q.pre q.delimiter before later)
    (hat : before = some u ∨ u ∈ later) : followUploads t q fuel (markerOf before) = none := by
  induction fuel generalizing before later with
  | zero => rfl
  | succ fuel ih =>
    -- where the upload stands in what is left
    have hrest : ∀ ys zs, later = ys ++ u :: zs → later₀ = zs := by
      intro ys zs hys
      obtain ⟨early, hearly⟩ := h.suffix
      rw [hys, ← append_assoc] at hearly
      rw [← rest_of_split hearly.symm, rest_of_split hsplit]
    have htail : (before = some u ∧ later = later₀) ∨ ∃ ys, later = ys ++ u :: later₀ := by
      rcases hat with rfl | hu
      · left
        rw [← h.rest]
        exact ⟨rfl, rest_of_split hsplit⟩
      · right
        obtain ⟨ys, zs, hys⟩ := append_of_mem hu
        exact ⟨ys, hrest ys zs hys ▸ hys⟩
    have hmore : max < later.length := by
      rcases htail with ⟨-, rfl⟩ | ⟨ys, rfl⟩
      · exact hlong
      · rw [length_append, length_cons]
        omega
    rw [followUploads_more hw hmax fuel h hmore, map_eq_none_iff]
    by_cases hnil : reported q max before later = []
    · rw [hnil]
      exact ih h hat
    · obtain ⟨ys, m, later', hlater, hys, hnext, hlast, -⟩ := h.next hnil
      rw [hlast]
      refine ih hnext ?_
      by_contra hpast
      obtain ⟨hmu, hu'⟩ := not_or.1 hpast
      -- the upload that was reported last stands on the page behind `u`
      obtain ⟨b, hb, hlt⟩ : ∃ b, later₀ = b ++ m :: later' ∧ b.length < max := by
        rcases htail with ⟨-, rfl⟩ | ⟨xs, hxs⟩
        · exact ⟨ys, hlater, hys⟩
        · have hu : u ∈ ys ++ m :: later' := hlater ▸ hxs ▸ mem_append_right _ mem_cons_self
          obtain hu | rfl | hu : u ∈ ys ∨ u = m ∨ u ∈ later' := by simpa using hu
          · obtain ⟨a, b, rfl⟩ := append_of_mem hu
            rw [length_append, length_cons] at hys
            exact ⟨b, hrest a _ (by rw [hlater, append_assoc]; rfl), by omega⟩
          · exact absurd rfl hmu
          · exact absurd hu hu'
      have hgroup : m.group q.pre q.delimiter = u.group q.pre q.delimiter := by
        refine hall m ?_
        obtain ⟨k, hk⟩ := Nat.exists_eq_succ_of_ne_zero (Nat.sub_ne_zero_of_lt hlt)
        rw [hb, take_append, hk, take_succ_cons]
        exact mem_append_right _ mem_cons_self
      obtain ⟨done', hdone', hfirst⟩ := hnext.first hw (hgroup ▸ hsome)
      have hu : u ∈ done' ++ m :: later' := hdone' ▸ hsplit ▸ mem_append_right _ mem_cons_self
      rcases mem_append.1 hu with hu | hu
      · exact hfirst u hu hgroup.symm
      · rcases mem_cons.1 hu with rfl | hu
        · exact hmu rfl
        · exact hu' hu

end

/-! ## Exact listings -/

variable {pages : List (Marker × UploadPage)}

theorem followUploads_mono {m : Marker} (h : followUploads t q n m = some pages) : followUploads t q (n + 1) m = some pages := by
  induction n generalizing m pages with
  | zero => cases h
  | succ n ih =>
    rw [followUploads] at h ⊢
    split at h
    · cases h
    · split at h
      · next hmore =>
        obtain ⟨pages', hpages', rfl⟩ := map_eq_some_iff.1 h
        simp [hmore, ih hpages']
      · next hmore =>
        rw [if_neg hmore]
        exact h

theorem followUploads_unique {k : Nat} {m : Marker} {pages' : List (Marker × UploadPage)}
    (h : followUploads t q n m = some pages) (h' : followUploads t q k m = some pages') : pages = pages' := by
  have hadd : ∀ {n : Nat} {pages}, followUploads t q n m = some pages → ∀ j, followUploads t q (n + j) m = some pages := by
    intro n pages h j
    induction j with
    | zero => exact h
    | succ j ih => exact followUploads_mono ih
  have hk := hadd h k
  rw [Nat.add_comm, hadd h' n] at hk
  exact (some.inj hk).symm

theorem nodup_inRange : (t.inRange pre).Nodup := by
  refine inRange_ordered.imp fun {u v} hb heq => ?_
  subst heq
  exact hb.not_symm hb

theorem isPrefixOf_iff {w : Upload} {cp : Text} (hu : q.pre <+: u.key) (hw : w.group q.pre q.delimiter = some cp) :
    cp.isPrefixOf u.key = true ↔ u.group q.pre q.delimiter = some cp := by
  rw [List.isPrefixOf_iff_prefix]
  exact ⟨fun h => virtualPrefix_of_isPrefix hw h, fun h => isPrefix_of_virtualPrefix hu h⟩

theorem once_of_reached (hw : Within t q.pre) (hu : u ∈ t.rows) (hp : q.pre <+: u.key)
    (hups : allUploads pages = (heads (Upload.group q.pre q.delimiter) none (t.inRange q.pre)).filter
      (fun u => (u.group q.pre q.delimiter).isNone))
    (hcps : allPrefixes pages = (heads (Upload.group q.pre q.delimiter) none (t.inRange q.pre)).filterMap
      (Upload.group q.pre q.delimiter)) :
    (allUploads pages).count u + (allPrefixes pages).countP (·.isPrefixOf u.key) = 1 ↔
      ∃ v ∈ t.inRange q.pre, v = u ∨ ((u.group q.pre q.delimiter).isSome ∧ v.group q.pre q.delimiter = u.group q.pre q.delimiter) := by
  have hprefixes : ∀ cp ∈ allPrefixes pages, ∃ w ∈ t.inRange q.pre, w.group q.pre q.delimiter = some cp := by
    intro cp hcp
    obtain ⟨w, hwm, hwg⟩ := mem_filterMap.1 (hcps ▸ hcp)
    exact ⟨w, (heads_sublist _ _).subset hwm, hwg⟩
  cases hg : u.group q.pre q.delimiter with
  | none =>
    have hzero : (allPrefixes pages).countP (·.isPrefixOf u.key) = 0 := by
      refine countP_eq_zero.2 fun cp hcp hpre => ?_
      obtain ⟨w, -, hwg⟩ := hprefixes cp hcp
      rw [(isPrefixOf_iff hp hwg).1 hpre] at hg
      cases hg
    have hnodup : (allUploads pages).Nodup := hups ▸ (nodup_inRange.sublist (heads_sublist _ _)).filter _
    have hmem : u ∈ allUploads pages ↔ u ∈ t.inRange q.pre := by
      rw [hups, mem_filter, mem_heads_iff hg, hg]
      exact and_iff_left rfl
    rw [hzero, Nat.add_zero, hnodup.count]
    simp [hmem]
  | some cp =>
    have hzero : (allUploads pages).count u = 0 := by
      refine count_eq_zero.2 fun hmem => ?_
      have := (mem_filter.1 (hups ▸ hmem)).2
      rw [hg] at this
      cases this
    have hcount : (allPrefixes pages).countP (·.isPrefixOf u.key) = (allPrefixes pages).count cp := by
      refine countP_congr fun c hc => ?_
      obtain ⟨w, -, hwg⟩ := hprefixes c hc
      rw [isPrefixOf_iff hp hwg, hg, beq_iff_eq, some.injEq]
      exact eq_comm
    have hnodup : (allPrefixes pages).Nodup := hcps ▸ (grouped_inRange hw).nodup_groups
    have hmem : cp ∈ allPrefixes pages ↔ ∃ v ∈ t.inRange q.pre, v.group q.pre q.delimiter = some cp := by
      rw [hcps, mem_groups_iff]
    have hself : (∃ v ∈ t.inRange q.pre, v = u ∨ ((some cp).isSome ∧ v.group q.pre q.delimiter = some cp)) ↔ cp ∈ allPrefixes pages := by
      rw [hmem]
      constructor
      · rintro ⟨v, hv, rfl | ⟨-, hvg⟩⟩
        · exact ⟨v, hv, hg⟩
        · exact ⟨v, hv, hvg⟩
      · rintro ⟨v, hv, hvg⟩
        exact ⟨v, hv, .inr ⟨rfl, hvg⟩⟩
    rw [hzero, Nat.zero_add, hcount, hnodup.count, hself]
    simp

/-- **Listing uploads.** If no other upload lies in the range of the query, the pages are exact
exactly when the query reaches all uploads under the prefix and no common prefix fills a page behind
its first upload with more to come. -/
theorem uploads_exact_iff (hw : Within t q.pre) (hmax : parseMax q = some max) (hpos : 0 < max) :
    ListsUploads t q ↔ Reached t q.pre q.delimiter ∧ Fits t q.pre q.delimiter max := by
  have hstart : Stands t q.pre q.delimiter none (t.inRange q.pre) := rfl
  constructor
  · rintro ⟨fuel, pages, hpages, hexact⟩
    have hfit : Fits t q.pre q.delimiter max := by
      intro done u later hsplit hsome _ hall
      by_contra hlong
      have hu : u ∈ t.inRange q.pre := hsplit ▸ mem_append_right _ mem_cons_self
      have hnone := followUploads_stuck hw hmax hsplit hsome hall (Nat.not_le.1 hlong) fuel hstart (.inr hu)
      exact nomatch hnone.symm.trans hpages
    obtain ⟨pages', hpages', -, hups, hcps⟩ := followUploads_of_fits hw hmax hpos hfit le_rfl hstart
    obtain rfl := followUploads_unique hpages hpages'
    exact ⟨fun u hu hp => (once_of_reached hw hu hp hups hcps).1 (hexact.once u hu hp), hfit⟩
  · rintro ⟨hreach, hfit⟩
    obtain ⟨pages, hpages, hprog, hups, hcps⟩ := followUploads_of_fits hw hmax hpos hfit le_rfl hstart
    refine ⟨_, pages, hpages, hprog, fun u hu hp =>
      (once_of_reached hw hu hp hups hcps).2 (hreach u hu hp), fun u hu => ?_, fun cp hcp => ?_⟩
    · have hmem : u ∈ t.inRange q.pre := (heads_sublist _ _).subset (mem_filter.1 (hups ▸ hu)).1
      exact ⟨(mem_filter.1 hmem).1, hw.inRange hmem⟩
    · obtain ⟨u, hu, hcp⟩ := mem_groups_iff.1 (hcps ▸ hcp)
      exact ⟨u, (mem_filter.1 hu).1, hw.inRange hu, hcp⟩

theorem within_of_ordinary (h : Ordinary q.pre) : Within t q.pre := fun _ _ hr => (inRange_iff h).1 hr

theorem reached_of_ordinary (h : Ordinary q.pre) : Reached t q.pre q.delimiter := by
  intro u hu hp
  exact ⟨u, mem_filter.2 ⟨hu, decide_eq_true ((inRange_iff h).2 hp)⟩, .inl rfl⟩

def directory : Uploads where
  rows := [⟨['d', '/', 'a', '/', '1'], 1, 0⟩, ⟨['d', '/', 'a', '/', '1'], 2, 0⟩, ⟨['d', '/', 'b'], 1, 0⟩]
  ordered := by decide
  ids := by decide

theorem directory_listed : ListsUploads directory ⟨['d', '/'], ['/'], some 2⟩ := by
  have ho : Ordinary ['d', '/'] := ⟨['d'], '/', 0, rfl, by decide, by decide⟩
  have hfit : Fits directory ['d', '/'] ['/'] 2 := by decide +kernel
  exact (uploads_exact_iff (within_of_ordinary ho) rfl (by decide)).2 ⟨reached_of_ordinary ho, hfit⟩

/-- With one upload on a page, the page behind the first of the directory passes over the second and
repeats its markers. -/
theorem folded_page_repeats : parseMax ⟨['d', '/'], ['/'], some 1⟩ = some 1 ∧
    listMultipartUploads directory ⟨['d', '/'], ['/'], some 1⟩ ⟨['d', '/', 'a', '/', '1'], 1⟩ =
      some ⟨[], [], true, ⟨['d', '/', 'a', '/', '1'], 1⟩⟩ ∧
    ¬ ListsUploads directory ⟨['d', '/'], ['/'], some 1⟩ := by
  refine ⟨rfl, by decide +kernel, ?_⟩
  rintro ⟨fuel, pages, hpages, -⟩
  have ho : Ordinary ['d', '/'] := ⟨['d'], '/', 0, rfl, by decide, by decide⟩
  have hsplit : directory.inRange ['d', '/'] = [] ++ ⟨['d', '/', 'a', '/', '1'], 1, 0⟩ ::
      [⟨['d', '/', 'a', '/', '1'], 2, 0⟩, ⟨['d', '/', 'b'], 1, 0⟩] := by decide +kernel
  have hstart : Stands directory ['d', '/'] ['/'] none (directory.inRange ['d', '/']) := rfl
  have hnone := followUploads_stuck (q := ⟨['d', '/'], ['/'], some 1⟩)
    (within_of_ordinary ho) rfl hsplit (by decide) (by decide) (by decide)
    fuel hstart (.inr (hsplit ▸ mem_cons_self))
  exact nomatch hnone.symm.trans hpages

end Pgvs3.Listing
