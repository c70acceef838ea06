import Pgvs3.Codec.Pieces
import Pgvs3.Data.Text
import Pgvs3.Ns
/-!
# Multipart planning

The loop of `planMultipart` goes through the stored parts and takes those that are listed next
(`planLoop_iff`).
-/

namespace Pgvs3.Multipart

open List

/-- `write.go:828-832`. -/
structure ListedPart where
  partNo : Nat
  etag : Text
  /-- Name and value. -/
  checksum : Option (Text × Text)

/-- `write.go:723-730`. -/
structure StoredPart where
  no : Nat
  fileID : Int64
  size : Nat
  sha : Bytes
  md5 : Bytes
  checksum : Option Text

def maxPartSize : Nat := 2147483648 * 8120

structure StoredPart.Shape (p : StoredPart) : Prop where
  no : 1 ≤ p.no ∧ p.no ≤ 10000
  size : p.size ≤ maxPartSize

/-- `write.go:732-736`. -/
structure PartChecksum where
  no : Nat
  fileID : Int64
  value : Text
deriving DecidableEq

/-- In the loop `sha256` and `md5` are what the two hashes have been given (`write.go:738-746`). -/
structure MultipartPlan where
  fileIDs : List Int64 := []
  partEnds : List Nat := []
  unused : List Int64 := []
  size : Nat := 0
  sha256 : Bytes := []
  md5 : Bytes := []
  etag : Text := []
  checksums : List PartChecksum := []

/-- `write.go:748-758`. -/
def validateListedParts (listed : List ListedPart) : Bool :=
  !listed.isEmpty && listed.all (fun p => decide (1 ≤ p.partNo ∧ p.partNo ≤ 10000)) && decide ((listed.map (·.partNo)).IsChain (· < ·))

def hex (bs : Bytes) : Text := bs.flatMap fun b => Data.hexDigits 2 b.toNat

/-- `write.go:803-809`. -/
def s3ETag (md5sum : Bytes) (parts : Nat) : Text :=
  if 0 < parts then hex md5sum ++ '-' :: Nat.toDigits 10 parts else hex md5sum

/-- `write.go:792-801`. -/
def partChecksumOK (algorithm : Option Text) (l : ListedPart) (p : StoredPart) : Bool :=
  match algorithm, l.checksum with
  | none, none => true
  | some a, some (name, value) => a == name && p.checksum == some value
  | _, _ => false

def checksumOf (algorithm : Option Text) (p : StoredPart) : Option PartChecksum :=
  if algorithm.isSome then p.checksum.map (⟨p.no, p.fileID, ·⟩) else none

def MultipartPlan.skip (plan : MultipartPlan) (p : StoredPart) : MultipartPlan := { plan with unused := plan.unused ++ [p.fileID] }

def MultipartPlan.take (algorithm : Option Text) (plan : MultipartPlan) (p : StoredPart) : MultipartPlan :=
  { plan with
    sha256 := plan.sha256 ++ p.sha
    md5 := plan.md5 ++ p.md5
    size := plan.size + p.size
    fileIDs := plan.fileIDs ++ [p.fileID]
    partEnds := plan.partEnds ++ [plan.size + p.size]
    checksums := plan.checksums ++ (checksumOf algorithm p).toList }

/-- `none` is `ErrInvalidPart`. -/
def planLoop (algorithm : Option Text) : List ListedPart → List StoredPart → MultipartPlan → Option MultipartPlan
  | [], [], plan => some plan
  | _ :: _, [], _ => none
  | [], p :: stored, plan => planLoop algorithm [] stored (plan.skip p)
  | l :: listed, p :: stored, plan =>
    if l.partNo ≠ p.no then planLoop algorithm (l :: listed) stored (plan.skip p)
    else if l.etag = hex p.md5 ∧ partChecksumOK algorithm l p then planLoop algorithm listed stored (plan.take algorithm p)
    else none

def MultipartPlan.digest (sha256 md5 : Bytes → Bytes) (plan : MultipartPlan) : MultipartPlan :=
  { plan with sha256 := sha256 plan.sha256, etag := s3ETag (md5 plan.md5) plan.fileIDs.length }

/-- `write.go:760-790`. -/
def planMultipart (sha256 md5 : Bytes → Bytes) (algorithm : Option Text) (listed : List ListedPart) (stored : List StoredPart) :
    Option MultipartPlan :=
  (planLoop algorithm listed stored {}).map (·.digest sha256 md5)

def Fits (algorithm : Option Text) (l : ListedPart) (p : StoredPart) : Prop :=
  p.no = l.partNo ∧ l.etag = hex p.md5 ∧ partChecksumOK algorithm l p = true

theorem isSome_of_ok {algorithm : Option Text} {l : ListedPart} {p : StoredPart} (ha : algorithm.isSome = true)
    (h : partChecksumOK algorithm l p = true) : p.checksum.isSome = true := by
  obtain ⟨a, rfl⟩ := Option.isSome_iff_exists.1 ha
  cases hc : l.checksum with
  | none => simp [partChecksumOK, hc] at h
  | some c =>
    have hc : a = c.1 ∧ p.checksum = some c.2 := by simpa [partChecksumOK, hc] using h
    simp [hc.2]

def sums : Nat → List Nat → List Nat
  | _, [] => []
  | a, n :: ns => (a + n) :: sums (a + n) ns

def tiles : Nat → List StoredPart → List Codec.Segment
  | _, [] => []
  | base, p :: ps => ⟨p.fileID, base, p.size⟩ :: tiles (base + p.size) ps

/-- The plan after `chosen` and `unused` have been seen. -/
def MultipartPlan.after (algorithm : Option Text) (plan : MultipartPlan) (chosen unused : List StoredPart) : MultipartPlan where
  fileIDs := plan.fileIDs ++ chosen.map (·.fileID)
  partEnds := plan.partEnds ++ sums plan.size (chosen.map (·.size))
  unused := plan.unused ++ unused.map (·.fileID)
  size := plan.size + (chosen.map (·.size)).sum
  sha256 := plan.sha256 ++ chosen.flatMap (·.sha)
  md5 := plan.md5 ++ chosen.flatMap (·.md5)
  etag := plan.etag
  checksums := plan.checksums ++ chosen.filterMap (checksumOf algorithm)

variable {algorithm : Option Text} {listed : List ListedPart} {stored : List StoredPart} {plan plan' : MultipartPlan} {ns : List Nat}

theorem after_skip (p : StoredPart) (chosen unused : List StoredPart) :
    (plan.skip p).after algorithm chosen unused = plan.after algorithm chosen (p :: unused) := by
  simp [MultipartPlan.after, MultipartPlan.skip]

theorem after_take (p : StoredPart) (chosen unused : List StoredPart) :
    (plan.take algorithm p).after algorithm chosen unused = plan.after algorithm (p :: chosen) unused := by
  cases hc : checksumOf algorithm p <;> simp [MultipartPlan.after, MultipartPlan.take, sums, hc, Nat.add_assoc]

def isListed (listed : List ListedPart) (p : StoredPart) : Bool := listed.any (·.partNo == p.no)

theorem planLoop_iff (hl : listed.Pairwise (·.partNo < ·.partNo)) (hs : stored.Pairwise (·.no < ·.no)) :
    planLoop algorithm listed stored plan = some plan' ↔ (∀ l ∈ listed, ∃ p ∈ stored, Fits algorithm l p) ∧
      plan' = plan.after algorithm (stored.filter (isListed listed)) (stored.filter (!isListed listed ·)) := by
  induction stored generalizing listed plan with
  | nil =>
    cases listed with
    | nil => simp [planLoop, MultipartPlan.after, sums, eq_comm]
    | cons l ls =>
      refine ⟨nofun, fun ⟨h, _⟩ => ?_⟩
      obtain ⟨p, hp, -⟩ := h l mem_cons_self
      cases hp
  | cons p ps ih =>
    obtain ⟨hp, hs⟩ := pairwise_cons.1 hs
    cases hp' : isListed listed p with
    | false =>
      have hno : ∀ l ∈ listed, l.partNo ≠ p.no := by simpa [isListed] using hp'
      have hloop : planLoop algorithm listed (p :: ps) plan = planLoop algorithm listed ps (plan.skip p) := by
        cases listed with
        | nil => rfl
        | cons l ls => exact if_pos (hno l mem_cons_self)
      have hfits : ∀ l ∈ listed, (∃ q ∈ p :: ps, Fits algorithm l q) ↔ ∃ q ∈ ps, Fits algorithm l q := by
        intro l hm
        simp [Fits, (hno l hm).symm]
      rw [hloop, ih hl hs, after_skip, forall₂_congr hfits]
      simp [hp']
    | true =>
      cases listed with
      | nil => cases hp'
      | cons l ls =>
        obtain ⟨hlt, hls⟩ := pairwise_cons.1 hl
        rw [planLoop]
        split
        · next hne =>
          -- the number of `p` comes later in the list, so that no stored part has the one that is
          -- due
          obtain ⟨l', hl', he⟩ : ∃ l' ∈ ls, l'.partNo = p.no := by simpa [isListed, hne] using hp'
          have hlt := hlt l' hl'
          have hmiss : ∀ q ∈ p :: ps, q.no ≠ l.partNo := by
            intro q hq
            rcases mem_cons.1 hq with rfl | hq
            · omega
            · have := hp q hq
              omega
          rw [ih hl hs]
          constructor <;> rintro ⟨h, -⟩ <;> obtain ⟨q, hq, hf, -⟩ := h l mem_cons_self
          · exact absurd hf (hmiss q (mem_cons_of_mem _ hq))
          · exact absurd hf (hmiss q hq)
        · next heq =>
          have heq : l.partNo = p.no := not_not.1 heq
          split
          · next hok =>
            have hfits : ∀ l' ∈ ls, (∃ q ∈ p :: ps, Fits algorithm l' q) ↔ ∃ q ∈ ps, Fits algorithm l' q := by
              intro l' hm
              have := hlt l' hm
              simp [Fits, show p.no ≠ l'.partNo by omega]
            have hrest : ∀ q ∈ ps, isListed (l :: ls) q = isListed ls q := by
              intro q hq
              have := hp q hq
              simp [isListed, show l.partNo ≠ q.no by omega]
            rw [ih hls hs, after_take, forall_mem_cons, forall₂_congr hfits, filter_cons_of_pos hp',
              filter_cons_of_neg (by simp [hp']), filter_congr hrest, filter_congr fun q hq => congrArg _ (hrest q hq)]
            simp [Fits, heq, hok.1, hok.2]
          · next hbad =>
            refine ⟨nofun, fun ⟨h, _⟩ => ?_⟩
            obtain ⟨q, hq, hno, hok⟩ := h l mem_cons_self
            rcases mem_cons.1 hq with rfl | hq
            · exact absurd hok hbad
            · have := hp q hq
              omega

theorem validated (h : validateListedParts listed = true) : listed ≠ [] ∧ (∀ p ∈ listed, 1 ≤ p.partNo ∧ p.partNo ≤ 10000) ∧
    (listed.map (·.partNo)).Pairwise (· < ·) := by
  simpa [validateListedParts, isChain_iff_pairwise, and_assoc] using h

theorem segmentsFrom_tiles (base : Nat) (ps : List StoredPart) :
    Codec.segmentsFrom base ((ps.map (·.fileID)).zip (sums base (ps.map (·.size)))) = .ok (tiles base ps) := by
  induction ps generalizing base with
  | nil => rfl
  | cons p ps ih =>
    simp only [map_cons, sums, zip_cons_cons, Codec.segmentsFrom, tiles, ih]
    rw [if_neg (by omega), Nat.add_sub_cancel_left]
    rfl

theorem length_sums (a : Nat) (ns : List Nat) : (sums a ns).length = ns.length := by
  induction ns generalizing a with
  | nil => rfl
  | cons n ns ih => simp [sums, ih]

theorem getLast?_sums (a : Nat) (h : ns ≠ []) : (sums a ns).getLast? = some (a + ns.sum) := by
  induction ns generalizing a with
  | nil => exact absurd rfl h
  | cons n ns ih =>
    cases ns with
    | nil => simp [sums]
    | cons m ns =>
      have := ih (a + n) (by simp)
      simp only [sums, getLast?_cons_cons, sum_cons] at this ⊢
      rw [this]
      simp [Nat.add_assoc]

theorem le_of_mem_sums {a e : Nat} (h : e ∈ sums a ns) : e ≤ a + ns.sum := by
  induction ns generalizing a with
  | nil => cases h
  | cons n ns ih =>
    rw [sum_cons]
    rcases mem_cons.1 h with rfl | h
    · omega
    · have := ih h
      omega

variable {sha256 md5 : Bytes → Bytes} {ps : List StoredPart}

section

variable (hl : validateListedParts listed = true)
include hl

theorem numbers_listed (hs : stored.Pairwise (·.no < ·.no))
    (hfits : ∀ l ∈ listed, ∃ p ∈ stored, Fits algorithm l p) :
    (stored.filter (isListed listed)).map (·.no) = listed.map (·.partNo) := by
  refine List.Pairwise.eq_of_mem_iff (pairwise_map.2 (hs.filter _)) (validated hl).2.2 fun n => ?_
  simp only [mem_map, mem_filter]
  constructor
  · rintro ⟨p, ⟨-, hp⟩, rfl⟩
    simpa [isListed] using hp
  · rintro ⟨l, hm, rfl⟩
    obtain ⟨p, hp, hf⟩ := hfits l hm
    exact ⟨p, ⟨hp, List.any_eq_true.2 ⟨l, hm, by simp [hf.1]⟩⟩, hf.1⟩

theorem chosen_ne_nil (hs : stored.Pairwise (·.no < ·.no))
    (hfits : ∀ l ∈ listed, ∃ p ∈ stored, Fits algorithm l p) : stored.filter (isListed listed) ≠ [] := by
  intro he
  have := numbers_listed hl hs hfits
  rw [he] at this
  exact (validated hl).1 (map_eq_nil_iff.1 this.symm)

theorem planMultipart_eq_some (hs : stored.Pairwise (·.no < ·.no)) :
    planMultipart sha256 md5 algorithm listed stored = some plan ↔ (∀ l ∈ listed, ∃ p ∈ stored, Fits algorithm l p) ∧
      plan = (MultipartPlan.after algorithm {} (stored.filter (isListed listed))
        (stored.filter (!isListed listed ·))).digest sha256 md5 := by
  have hpair := pairwise_map.1 (validated hl).2.2
  simp only [planMultipart, Option.map_eq_some_iff, planLoop_iff hpair hs]
  constructor
  · rintro ⟨plan, ⟨h, rfl⟩, rfl⟩
    exact ⟨h, rfl⟩
  · rintro ⟨h, rfl⟩
    exact ⟨_, ⟨h, rfl⟩, rfl⟩

end

theorem segments_tiles (hne : ps ≠ []) (table : Nat) :
    (Codec.Meta.mk ((ps.map (·.fileID)).headD 0) (0 + (ps.map (·.size)).sum) (some (ps.map (·.fileID)))
      (some (sums 0 (ps.map (·.size)))) table).segments = .ok (tiles 0 ps) := by
  obtain ⟨p, ps, rfl⟩ := exists_cons_of_ne_nil hne
  simp only [Codec.Meta.segments]
  rw [if_neg, segmentsFrom_tiles]
  simp [length_sums, getLast?_sums]

/-- The parts of one upload fit into an int64. -/
theorem sum_sizes_lt (hno : (ps.map (·.no)).Pairwise (· < ·)) (hshape : ∀ p ∈ ps, p.Shape) : (ps.map (·.size)).sum < 2 ^ 63 := by
  have hsub : ps.map (·.no) ⊆ List.range' 1 10000 := by
    intro n hn
    obtain ⟨p, hp, rfl⟩ := mem_map.1 hn
    have := (hshape p hp).no
    exact mem_range'_1.2 ⟨this.1, by omega⟩
  have hlen := (subperm_of_subset hno.nodup hsub).length_le
  have hsum := sum_le_card_nsmul (ps.map (·.size)) maxPartSize fun n hn => by
    obtain ⟨p, hp, rfl⟩ := mem_map.1 hn
    exact (hshape p hp).size
  simp only [length_map, length_range', smul_eq_mul, maxPartSize] at hlen hsum
  omega

theorem planMultipart_exact (sha256 md5 : Bytes → Bytes) (algorithm : Option Text) (listed : List ListedPart) (stored : List StoredPart)
    (hl : validateListedParts listed = true) (hs : stored.Pairwise (·.no < ·.no)) (hshape : ∀ p ∈ stored, p.Shape) :
    ((planMultipart sha256 md5 algorithm listed stored).isSome = true ↔ ∀ l ∈ listed, ∃ p ∈ stored, Fits algorithm l p) ∧
    ∀ plan ∈ planMultipart sha256 md5 algorithm listed stored, ∃ chosen, chosen.Sublist stored ∧
      chosen.map (·.no) = listed.map (·.partNo) ∧ plan.fileIDs = chosen.map (·.fileID) ∧ plan.partEnds = sums 0 (chosen.map (·.size)) ∧
      plan.size = (chosen.map (·.size)).sum ∧ (plan.fileIDs ++ plan.unused).Perm (stored.map (·.fileID)) ∧
      (∀ table, (Codec.Meta.mk (plan.fileIDs.headD 0) plan.size (some plan.fileIDs) (some plan.partEnds) table).segments =
        .ok (tiles 0 chosen)) ∧
      plan.size < 2 ^ 63 ∧ ∀ e ∈ plan.partEnds, e ≤ plan.size := by
  refine ⟨?_, fun plan hplan => ?_⟩
  · rw [Option.isSome_iff_exists]
    simp only [planMultipart_eq_some hl hs, exists_and_left, exists_eq, and_true]
  · obtain ⟨hfits, rfl⟩ := (planMultipart_eq_some hl hs).1 hplan
    refine ⟨stored.filter (isListed listed), filter_sublist, numbers_listed hl hs hfits, rfl, rfl, Nat.zero_add _, ?_,
      segments_tiles (chosen_ne_nil hl hs hfits), ?_, fun e he => le_of_mem_sums he⟩
    · simp only [MultipartPlan.digest, MultipartPlan.after, nil_append, ← map_append]
      exact (filter_append_perm _ _).map _
    · have := sum_sizes_lt (pairwise_map.2 (hs.filter (isListed listed))) fun p hp => hshape p (mem_of_mem_filter hp)
      simpa [MultipartPlan.after, MultipartPlan.digest] using this

/-- Of two stored parts one is listed. -/
theorem unlisted_part_unused : ∃ plan ∈ planMultipart id id none [⟨2, [], none⟩] [⟨1, 7, 3, [], [], none⟩, ⟨2, 8, 4, [], [], none⟩],
    plan.fileIDs = [8] ∧ ∃ chosen : List StoredPart, chosen.map (·.no) = [2] ∧ plan.fileIDs = chosen.map (·.fileID) := by
  have hexact := planMultipart_exact id id none [⟨2, [], none⟩]
      [⟨1, 7, 3, [], [], none⟩, ⟨2, 8, 4, [], [], none⟩] (by decide) (by simp) (by
      intro p hp
      rcases mem_cons.1 hp with rfl | hp
      · exact ⟨by decide, by decide⟩
      · cases mem_singleton.1 hp
        exact ⟨by decide, by decide⟩)
  obtain ⟨chosen, -, hno, hids, -⟩ := hexact.2 _ rfl
  exact ⟨_, rfl, rfl, chosen, hno, hids⟩

end Pgvs3.Multipart
