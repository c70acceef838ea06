import Pgvs3.Store.Multipart
/-!
# Attributes of parts

Checksums are stored by part number and looked up by position; a copy of an object onto itself
deletes them: `checksums_lost`.
-/

namespace Pgvs3.Multipart

open List Function

structure Ref where
  bucket : Text
  key : Text
deriving DecidableEq

/-- A row of `object_part_checksums`. -/
structure Check where
  no : Nat
  fileID : Int64
  algorithm : Text
  value : Text
deriving DecidableEq

structure Object where
  parts : List Int64
  partEnds : List Nat
  checks : List Check
deriving DecidableEq

/-- `schema.sql:399-408`. -/
abbrev Tables := Ref → Option Object

/-- `write.go:928-965`. -/
def complete (ref : Ref) (algorithm : Option Text) (plan : MultipartPlan) (db : Tables) : Tables :=
  update db ref (some ⟨plan.fileIDs, plan.partEnds, plan.checksums.map fun c => ⟨c.no, c.fileID, algorithm.getD [], c.value⟩⟩)

/-- What a copy inserts; `rows` are those of the source (`write.go:1434-1465`). -/
def copyPartChecksums (src dst : Ref) (newID : Int64 → Int64) (parts : List Int64) (rows : List Check) : List Check :=
  if src.bucket = dst.bucket then if src.key = dst.key then [] else rows
  else rows.map fun c => { c with fileID := if c.fileID ∈ parts then newID c.fileID else c.fileID }

/-- The file ids of a copy in another bucket are new ones. -/
structure Copy where
  dst : Ref
  newID : Int64 → Int64
  fresh : Injective newID

/-- `none` is a source that is not there. The rows of the destination are deleted first
(`write.go:1274-1296`). -/
def copyObject (src : Ref) (c : Copy) (db : Tables) : Option Tables :=
  (db src).map fun o => update db c.dst (some
    ⟨if src.bucket = c.dst.bucket then o.parts
      else o.parts.map c.newID, o.partEnds, copyPartChecksums src c.dst c.newID o.parts o.checks⟩)

/-- `write.go:1061-1066`. -/
structure PartInfo where
  number : Nat
  size : Nat
  fileID : Int64
  checksum : Option (Text × Text)
deriving DecidableEq

def lookupCheck (checks : List Check) (no : Nat) (fileID : Int64) : Option (Text × Text) :=
  ((checks.find? (·.no == no)).filter (·.fileID == fileID)).map fun c => (c.algorithm, c.value)

/-- The loop over `PartEnds`, with the files. -/
def partInfos (checks : List Check) : Nat → Nat → List (Int64 × Nat) → List PartInfo
  | _, _, [] => []
  | no, prev, (fileID, stop) :: rest =>
    ⟨no, stop - prev, fileID, lookupCheck checks no fileID⟩ :: partInfos checks (no + 1) stop rest

/-- `write.go:1068-1119`. -/
def attributes (ref : Ref) (db : Tables) : Option (List PartInfo) :=
  (db ref).map fun o => partInfos o.checks 1 0 (o.parts.zip o.partEnds)

/-- Copies one after the other, each of the one before. -/
def copyChain : Ref → List Copy → Tables → Option (Ref × Tables)
  | src, [], db => some (src, db)
  | src, c :: cs, db => (copyObject src c db).bind (copyChain c.dst cs)

def expected (algorithm : Option Text) (chosen : List StoredPart) : List (Nat × Option (Text × Text)) :=
  chosen.map fun p => (p.size, algorithm.bind fun a => p.checksum.map (a, ·))

/-- What is reported after the completion of an upload and a chain of copies. -/
def reported (ref : Ref) (algorithm : Option Text) (plan : MultipartPlan) (cs : List Copy) (db : Tables) :
    Option (List (Nat × Option (Text × Text))) :=
  (copyChain ref cs (complete ref algorithm plan db)).bind fun x => (attributes x.1 x.2).map (·.map fun p => (p.size, p.checksum))

def selfCopy : Ref → List Copy → Bool
  | _, [] => false
  | src, c :: cs => c.dst == src || selfCopy c.dst cs

/-! ## Chains of copies -/

variable {ids : List Int64} {ends : List Nat} {rows : List Check} {f : Int64 → Int64} {src : Ref} {db : Tables} {lost : Bool}
  {ps : List StoredPart}

/-- The object under other file ids, with its rows or without. -/
def image (ids : List Int64) (ends : List Nat) (rows : List Check) (f : Int64 → Int64) (lost : Bool) : Object :=
  ⟨ids.map f, ends, if lost then [] else rows.map fun c => { c with fileID := f c.fileID }⟩

theorem copyObject_image {c : Copy} (hrows : ∀ r ∈ rows, r.fileID ∈ ids)
    (hf : Injective f) (h : db src = some (image ids ends rows f lost)) :
    ∃ f', Injective f' ∧ copyObject src c db = some (update db c.dst (some (image ids ends rows f' (c.dst == src || lost)))) := by
  by_cases hb : src.bucket = c.dst.bucket
  · refine ⟨f, hf, ?_⟩
    by_cases hk : src.key = c.dst.key
    · have hself : c.dst = src := by cases src; cases h' : c.dst; simp_all
      simp [copyObject, h, copyPartChecksums, hb, hk, image, hself]
    · have hother : c.dst ≠ src := fun he => hk (he ▸ rfl)
      simp [copyObject, h, copyPartChecksums, hb, hk, image, hother]
  · have hother : c.dst ≠ src := fun he => hb (he ▸ rfl)
    refine ⟨c.newID ∘ f, c.fresh.comp hf, ?_⟩
    cases lost with
    | true => simp [copyObject, h, copyPartChecksums, hb, image]
    | false =>
      have hmap : ∀ r ∈ rows, f r.fileID ∈ ids.map f := fun r hr => mem_map_of_mem (hrows r hr)
      simp only [copyObject, h, copyPartChecksums, hb, image, Option.map_some, if_false, map_map, beq_eq_false_iff_ne.2 hother,
        Bool.false_or, Bool.false_eq_true]
      congr 4
      refine map_congr_left fun r hr => ?_
      simp only [comp_apply, if_pos (hmap r hr)]

theorem copyChain_image (cs : List Copy) (hrows : ∀ r ∈ rows, r.fileID ∈ ids)
    (hf : Injective f) (h : db src = some (image ids ends rows f lost)) :
    ∃ ref db' f', Injective f' ∧ copyChain src cs db = some (ref, db') ∧
      db' ref = some (image ids ends rows f' (selfCopy src cs || lost)) := by
  induction cs generalizing src db f lost with
  | nil => exact ⟨src, db, f, hf, rfl, h⟩
  | cons c cs ih =>
    obtain ⟨f', hf', hc⟩ := copyObject_image hrows hf h
    obtain ⟨ref, db', f'', hf'', hrun, hend⟩ := ih hf' (update_self c.dst _ db)
    refine ⟨ref, db', f'', hf'', ?_, ?_⟩
    · rw [copyChain, hc, Option.bind_some, hrun]
    · rw [hend, selfCopy, ← Bool.or_assoc, Bool.or_comm (c.dst == src)]

/-! ## Reports -/

theorem partInfos_eq_iff (checks : List Check) (f : Int64 → Int64) (g : StoredPart → Option (Text × Text)) (no prev : Nat)
    (ps : List StoredPart) :
    (partInfos checks no prev (((ps.map (·.fileID)).map f).zip (sums prev (ps.map (·.size))))).map (fun p => (p.size, p.checksum)) =
      ps.map (fun p => (p.size, g p)) ↔ ∀ i p, ps[i]? = some p → lookupCheck checks (no + i) (f p.fileID) = g p := by
  induction ps generalizing no prev with
  | nil => simp [partInfos]
  | cons p ps ih =>
    simp only [map_cons, sums, zip_cons_cons, partInfos, cons.injEq, ih, Prod.mk.injEq, Nat.add_sub_cancel_left, true_and]
    constructor
    · rintro ⟨hp, hps⟩ (_ | i) q hq
      · cases hq
        exact hp
      · rw [← hps i q hq, Nat.add_assoc, Nat.add_comm 1]
    · refine fun h => ⟨h 0 p rfl, fun i q hq => ?_⟩
      rw [← h (i + 1) q hq, Nat.add_assoc, Nat.add_comm 1]

def rowsOf (algorithm : Option Text) (ps : List StoredPart) : List Check :=
  (ps.filterMap (checksumOf algorithm)).map fun c => ⟨c.no, c.fileID, algorithm.getD [], c.value⟩

theorem mem_rowsOf {algorithm : Option Text} {r : Check} (h : r ∈ rowsOf algorithm ps) :
    ∃ q ∈ ps, algorithm.isSome = true ∧ q.checksum = some r.value ∧ r = ⟨q.no, q.fileID, algorithm.getD [], r.value⟩ := by
  obtain ⟨c, hc, rfl⟩ := mem_map.1 h
  obtain ⟨q, hq, hc⟩ := mem_filterMap.1 hc
  cases ha : algorithm.isSome with
  | false => simp [checksumOf, ha] at hc
  | true =>
    obtain ⟨v, hv, rfl⟩ : ∃ v, q.checksum = some v ∧ ⟨q.no, q.fileID, v⟩ = c := by simpa [checksumOf, ha] using hc
    exact ⟨q, hq, rfl, hv, rfl⟩

theorem lookupCheck_iff {a : Text} (hf : Injective f)
    (hno : (ps.map (·.no)).Nodup) (hsome : ∀ p ∈ ps, p.checksum.isSome = true) (n : Nat) {p : StoredPart} (hp : p ∈ ps) :
    lookupCheck ((rowsOf (some a) ps).map fun c => { c with fileID := f c.fileID }) n (f p.fileID) = p.checksum.map (a, ·) ↔
      ∃ q ∈ ps, q.no = n ∧ q.fileID = p.fileID ∧ q.checksum = p.checksum := by
  obtain ⟨v, hv⟩ := Option.isSome_iff_exists.1 (hsome p hp)
  cases hfind : ((rowsOf (some a) ps).map fun c => { c with fileID := f c.fileID }).find? (·.no == n) with
  | none =>
    simp only [lookupCheck, hfind, hv]
    refine iff_of_false nofun ?_
    rintro ⟨q, hq, rfl, -, hqv⟩
    have hrow : (⟨q.no, q.fileID, a, v⟩ : Check) ∈ rowsOf (some a) ps :=
      mem_map.2 ⟨⟨q.no, q.fileID, v⟩, mem_filterMap.2 ⟨q, hq, by simp [checksumOf, hqv]⟩, rfl⟩
    exact find?_eq_none.1 hfind _ (mem_map_of_mem hrow) (beq_self_eq_true _)
  | some r =>
    obtain ⟨r', hr', rfl⟩ := mem_map.1 (mem_of_find?_eq_some hfind)
    obtain ⟨q, hq, -, hqv, he⟩ := mem_rowsOf hr'
    have hn : r'.no = n := by simpa using find?_some hfind
    rw [he] at hn
    have hsame : ∀ q' ∈ ps, q'.no = n → q' = q := fun q' hq' hn' => inj_on_of_nodup_map hno hq' hq (hn'.trans hn.symm)
    simp only [lookupCheck, hfind, hv]
    rw [he]
    constructor
    · intro h
      obtain ⟨hfile, hval⟩ : f q.fileID = f p.fileID ∧ r'.value = v := by simpa [Option.filter_some] using h
      exact ⟨q, hq, hn, hf hfile, hqv.trans (congrArg some hval)⟩
    · rintro ⟨q', hq', hn', hfile, hval⟩
      cases hsame q' hq' hn'
      have hval : r'.value = v := Option.some.inj (hqv.symm.trans hval)
      simp [hfile, hval]

variable {algorithm : Option Text} {listed : List ListedPart} {stored : List StoredPart}

theorem isSome_checksum (hs : stored.Pairwise (·.no < ·.no)) (hfits : ∀ l ∈ listed, ∃ p ∈ stored, Fits algorithm l p)
    (ha : algorithm.isSome = true) : ∀ p ∈ stored.filter (isListed listed), p.checksum.isSome = true := by
  intro p hp
  obtain ⟨hp, hlisted⟩ := mem_filter.1 hp
  obtain ⟨l, hm, hno⟩ := List.any_eq_true.1 hlisted
  obtain ⟨q, hq, hqno, -, hok⟩ := hfits l hm
  cases inj_on_of_nodup_map (pairwise_map.2 hs).nodup hp hq ((beq_iff_eq.1 hno).symm.trans hqno.symm)
  exact isSome_of_ok ha hok

theorem attributes_preserved_iff (sha256 md5 : Bytes → Bytes) (algorithm : Option Text)
    (listed : List ListedPart) (stored : List StoredPart) {plan : MultipartPlan}
    (hl : validateListedParts listed = true) (hs : stored.Pairwise (·.no < ·.no))
    (hplan : planMultipart sha256 md5 algorithm listed stored = some plan) (ref : Ref)
    (cs : List Copy) (db : Tables) :
    let chosen := stored.filter (isListed listed)
    reported ref algorithm plan cs db = some (expected algorithm chosen) ↔ algorithm = none ∨ (selfCopy ref cs = false ∧
      ∀ i p, chosen[i]? = some p → ∃ q ∈ chosen, q.no = i + 1 ∧ q.fileID = p.fileID ∧ q.checksum = p.checksum) := by
  obtain ⟨hfits, hplan⟩ := (planMultipart_eq_some hl hs).1 hplan
  have hno : ((stored.filter (isListed listed)).map (·.no)).Nodup := (pairwise_map.2 (hs.filter _)).nodup
  have hsome := isSome_checksum hs hfits
  have hne := chosen_ne_nil hl hs hfits
  intro chosen
  have hrows : ∀ r ∈ rowsOf algorithm chosen, r.fileID ∈ chosen.map (·.fileID) := by
    intro r hr
    obtain ⟨q, hq, -, -, he⟩ := mem_rowsOf hr
    rw [he]
    exact mem_map_of_mem hq
  have hstart : complete ref algorithm plan db ref =
      some (image (chosen.map (·.fileID)) (sums 0 (chosen.map (·.size))) (rowsOf algorithm chosen) id false) := by
    simp [complete, image, rowsOf, hplan, MultipartPlan.digest, MultipartPlan.after, chosen]
  obtain ⟨ref', db', f, hf, hrun, hend⟩ := copyChain_image cs hrows injective_id hstart
  simp only [reported, hrun, Option.bind_some, attributes, hend, Option.map_some, Option.some.injEq, image, Bool.or_false, expected]
  rw [partInfos_eq_iff]
  cases algorithm with
  | none =>
    have hnil : rowsOf none chosen = [] := by simp [rowsOf, checksumOf]
    cases selfCopy ref cs <;> simp [hnil, lookupCheck]
  | some a =>
    simp only [reduceCtorEq, false_or, Option.bind_some]
    cases hself : selfCopy ref cs with
    | true =>
      obtain ⟨p, ps, he⟩ := exists_cons_of_ne_nil hne
      refine iff_of_false (fun h => ?_) (by simp)
      obtain ⟨v, hv⟩ := Option.isSome_iff_exists.1 (hsome rfl p (he ▸ mem_cons_self))
      simpa [lookupCheck, hv] using h 0 p (congrArg (·[0]?) he)
    | false =>
      simp only [Bool.false_eq_true, if_false, true_and, Nat.add_comm 1]
      exact forall_congr' fun i => forall₂_congr fun p hp => lookupCheck_iff hf hno (hsome rfl) (i + 1) (mem_of_getElem? hp)

def crc32 : Text := "CRC32".toList

def twoStored : List StoredPart :=
  [⟨1, 7, 5, [], replicate 16 1, some "AAAAAA==".toList⟩, ⟨2, 8, 6, [], replicate 16 2, some "AQAAAA==".toList⟩]

def twoListed : List ListedPart := twoStored.map fun p => ⟨p.no, hex p.md5, p.checksum.map (crc32, ·)⟩

/-- Two parts with checksums, copied to another bucket and from there to another key. -/
theorem copied_parts_preserved : ∃ plan, planMultipart id id (some crc32) twoListed twoStored = some plan ∧
    reported ⟨['b'], ['k']⟩ (some crc32) plan
      [⟨⟨['c'], ['k']⟩, (· + 10), fun _ _ h => (Int64.add_left_inj 10).1 h⟩,
        ⟨⟨['c'], ['l']⟩, id, injective_id⟩] (fun _ => none) =
      some [(5, some (crc32, "AAAAAA==".toList)), (6, some (crc32, "AQAAAA==".toList))] :=
  ⟨_, rfl, (attributes_preserved_iff id id (some crc32) twoListed twoStored (by decide) (by simp [twoStored]) rfl _ _ _).2
    (.inr ⟨by decide, fun i p hp => ⟨p, mem_of_getElem? hp, by rcases i with _ | _ | i <;> cases hp <;> rfl, rfl, rfl⟩⟩)⟩

/-- The only part has number 2. -/
theorem checksums_lost : ¬ ∀ listed stored plan, validateListedParts listed = true → stored.Pairwise (·.no < ·.no) →
    planMultipart id id (some crc32) listed stored = some plan → ∀ ref cs db,
      reported ref (some crc32) plan cs db = some (expected (some crc32) (stored.filter (isListed listed))) := by
  intro h
  have := h twoListed.tail twoStored.tail _ (by decide) (by simp [twoStored]) rfl ⟨['b'], ['k']⟩ [] fun _ => none
  exact absurd this (by decide)

end Pgvs3.Multipart
