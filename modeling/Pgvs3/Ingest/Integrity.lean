import Pgvs3.Data.Assoc
import Pgvs3.Ingest.Chunked
/-!
# Digests a request declares

The names of a `Header` are in lower case.

`expected` is a map: an assignment replaces what was there, and its entries come in any order
(`MapOrder`). So the value of a trailer takes the place of a header's value for the same digest
(`verify_ok`).
-/

namespace Pgvs3.Ingest

open Data (assign mem_assign trimSpace)
open List

def ascii (s : String) : Bytes := s.toList.map fun c => .ofNat c.toNat

/-- `write.go:117-120`. -/
inductive Digest where
  | contentMD5
  | md5
  | crc32
  | crc32c
  | crc64nvme
  | sha1
  | sha256
  | sha512
deriving DecidableEq, Repr

def Digest.name : Digest → Bytes
  | .contentMD5 => ascii "content-md5"
  | .md5 => ascii "x-amz-checksum-md5"
  | .crc32 => ascii "x-amz-checksum-crc32"
  | .crc32c => ascii "x-amz-checksum-crc32c"
  | .crc64nvme => ascii "x-amz-checksum-crc64nvme"
  | .sha1 => ascii "x-amz-checksum-sha1"
  | .sha256 => ascii "x-amz-checksum-sha256"
  | .sha512 => ascii "x-amz-checksum-sha512"

/-- `request.go:665-680`. -/
def supportedChecksum (name : Bytes) : Option Digest :=
  [Digest.contentMD5, .md5, .crc32, .crc32c, .crc64nvme, .sha1, .sha256, .sha512].find? fun d => d.name = name

/-- A hash that is written to in any portions; `sum` is its sum in base64. -/
structure Hash where
  State : Type
  init : State
  write : State → Bytes → State
  sum : State → Bytes
  write_nil : ∀ s, write s [] = s
  write_append : ∀ s a b, write (write s a) b = write s (a ++ b)

def Hash.digest (h : Hash) (bs : Bytes) : Bytes := h.sum (h.write h.init bs)

/-- `strings.ToLower`; among the letters that are not ASCII, U+212A alone has an ASCII letter of
these names below it. -/
def toLower : Bytes → Bytes
  | 0xe2 :: 0x84 :: 0xaa :: s => 107 :: toLower s
  | b :: s => (if 65 ≤ b ∧ b ≤ 90 then b + 32 else b) :: toLower s
  | [] => []

structure Header where
  fields : List (Bytes × List Bytes)
  nodup : (fields.map Prod.fst).Nodup

def Header.values (h : Header) (name : Bytes) : List Bytes := (h.fields.lookup name).getD []

/-- `Header.Get`: the first value. -/
def Header.get (h : Header) (name : Bytes) : Bytes := (h.values name).head?.getD []

inductive UploadError where
  /-- `NotImplemented`. -/
  | notImplemented
  /-- `invalid x-amz-checksum-type`. -/
  | checksumType
  /-- `duplicate checksum header`. -/
  | duplicate
  /-- `declared checksum algorithm has no checksum`. -/
  | noChecksum
  /-- `missing checksum trailer` and its name. -/
  | missingTrailer (d : Digest)
  /-- `BadDigest`: the named digest did not match the calculated checksum. -/
  | badDigest (d : Digest)
  /-- `unsupported streaming payload type`. -/
  | streamingPayload
  /-- `invalid x-amz-decoded-content-length`. -/
  | decodedLength
  /-- An error of the body. -/
  | body (e : BodyError)
  /-- `uploaded %d bytes, expected %d`. -/
  | size (got want : Nat)
  /-- The store refuses: a precondition, a quota, a file that is too long, the database. -/
  | store
deriving DecidableEq, Repr

/-- `request.go:540-544`. -/
structure Integrity where
  h : List Digest
  expected : List (Digest × Bytes)
  trailers : List Digest

/-- `request.go:603-623`. -/
def Integrity.addHasher (i : Integrity) (d : Digest) : Integrity := if d ∈ i.h then i else { i with h := d :: i.h }

def headerField (i : Integrity) (name : Bytes) (values : List Bytes) : Except UploadError Integrity :=
  if name = ascii "x-amz-checksum-type" then
    if values = [ascii "FULL_OBJECT"] ∨ values = [ascii "COMPOSITE"] then .ok i else .error .checksumType
  else if name = ascii "content-md5" ∨ ((ascii "x-amz-checksum-").isPrefixOf name ∧ name ≠ ascii "x-amz-checksum-algorithm") then
    match supportedChecksum name, values with
    | none, _ => .error .notImplemented
    | some d, [v] => .ok { i.addHasher d with expected := assign i.expected d v }
    | some _, _ => .error .duplicate
  else .ok i

def trailerName (i : Integrity) (name : Bytes) : Except UploadError Integrity :=
  match supportedChecksum (toLower (trimSpace name)) with
  | none => .error .notImplemented
  | some .contentMD5 => .error .notImplemented
  | some d => .ok { i.addHasher d with trailers := i.trailers ++ [d] }

def namesIn (line : Bytes) : List Bytes := if line = [] then [] else line.splitOn 44

def checkAlgorithm (h : Header) (i : Integrity) (name : Bytes) : Except UploadError Unit :=
  let algo := h.get name
  if algo = [] then .ok ()
  else
    match supportedChecksum (ascii "x-amz-checksum-" ++ toLower algo) with
    | none => .error .notImplemented
    | some d => if d ∈ i.expected.map Prod.fst ∨ d ∈ i.trailers then .ok () else .error .noChecksum

/-- `request.go:546-591`. -/
def newIntegrity (h : Header) : Except UploadError Integrity := do
  let i ← h.fields.foldlM (fun i f => headerField i f.1 f.2) ⟨[], [], []⟩
  let i ← (namesIn (h.get (ascii "x-amz-trailer"))).foldlM trailerName i
  checkAlgorithm h i (ascii "x-amz-sdk-checksum-algorithm")
  checkAlgorithm h i (ascii "x-amz-checksum-algorithm")
  return i

/-- How a loop goes through a map. -/
structure MapOrder where
  pick : List (Digest × Bytes) → List (Digest × Bytes)
  perm : ∀ m, (pick m).Perm m

/-- `FirstObjectChecksum` (`write.go:122-129`). -/
def firstObjectChecksum (checks : List (Digest × Bytes)) : Option (Digest × Bytes) := checks.find? (·.1 ≠ .contentMD5)

/-- `request.go:593-601`. -/
def Integrity.expectedChecksum (o : MapOrder) (i : Integrity) : Option (Digest × Bytes) :=
  firstObjectChecksum (o.pick i.expected)

/-- The values of a trailer; a name there has upper and lower case as it was sent. -/
def trailerValues (trailer : List (Bytes × Bytes)) (d : Digest) : List Bytes :=
  (trailer.filter fun kv => kv.1.map (fun b => if 65 ≤ b ∧ b ≤ 90 then b + 32 else b) = d.name).map Prod.snd

def trailerGet (trailer : List (Bytes × Bytes)) (d : Digest) : Bytes := (trailerValues trailer d).head?.getD []

def addTrailer (trailer : List (Bytes × Bytes)) (m : List (Digest × Bytes)) (d : Digest) : Except UploadError (List (Digest × Bytes)) :=
  if trailerGet trailer d = [] then .error (.missingTrailer d) else .ok (assign m d (trailerGet trailer d))

/-- `got` are the sums of the hashers. -/
def checkDigest (i : Integrity) (got : Digest → Bytes) (e : Digest × Bytes) : Except UploadError (Digest × Bytes) :=
  if e.1 ∉ i.h then .error .notImplemented else if got e.1 ≠ e.2 then .error (.badDigest e.1) else .ok (e.1, got e.1)

/-- `request.go:466`. -/
def Integrity.verify (o : MapOrder) (i : Integrity) (trailer : List (Bytes × Bytes)) (got : Digest → Bytes) :
    Except UploadError (List (Digest × Bytes)) := do
  let expected ← i.trailers.foldlM (addTrailer trailer) i.expected
  (o.pick expected).mapM (checkDigest i got)

/-! ## What a header declares -/

section

variable {h : Header} {i i' : Integrity} {d : Digest} {v name : Bytes} {trailer : List (Bytes × Bytes)} {got : Digest → Bytes}
  {checks : List (Digest × Bytes)}

def Header.Declares (h : Header) (d : Digest) (v : Bytes) : Prop := ∃ values, (d.name, values) ∈ h.fields ∧ v ∈ values

def Announced (line : Bytes) (d : Digest) : Prop := ∃ name ∈ namesIn line, supportedChecksum (toLower (trimSpace name)) = some d

theorem supportedChecksum_name (d : Digest) : supportedChecksum d.name = some d := by
  cases d <;> decide

theorem name_of_supportedChecksum (h : supportedChecksum name = some d) : d.name = name := by
  simpa using find?_some h

@[simp] theorem addHasher_expected (i : Integrity) (d : Digest) : (i.addHasher d).expected = i.expected := by
  unfold Integrity.addHasher
  split <;> rfl

@[simp] theorem addHasher_trailers (i : Integrity) (d : Digest) : (i.addHasher d).trailers = i.trailers := by
  unfold Integrity.addHasher
  split <;> rfl

theorem headerField_ok {values : List Bytes} (h : headerField i name values = .ok i') :
    (∃ d v, name = d.name ∧ values = [v] ∧ i' = { i.addHasher d with expected := assign i.expected d v }) ∨
      (∀ d : Digest, name ≠ d.name) ∧ i' = i := by
  unfold headerField at h
  split at h
  · next hname =>
    refine .inr ⟨fun d hd => ?_, ?_⟩
    · have hn : ascii "x-amz-checksum-type" ≠ d.name := by cases d <;> decide
      exact hn (hname ▸ hd)
    · split at h
      · cases h; rfl
      · cases h
  · split at h
    · split at h
      · cases h
      · next d v hs =>
        cases h
        exact .inl ⟨d, v, (name_of_supportedChecksum hs).symm, rfl, rfl⟩
      · cases h
    · next hname =>
      cases h
      refine .inr ⟨fun d hd => hname ?_, rfl⟩
      subst hd
      cases d <;> decide

theorem fields_ok {fields : List (Bytes × List Bytes)} (hnodup : (fields.map Prod.fst).Nodup)
    (h : fields.foldlM (fun i f => headerField i f.1 f.2) i = .ok i')
    (hnew : ∀ e ∈ i.expected, ∀ f ∈ fields, e.1.name ≠ f.1) :
    (∀ d v, (d, v) ∈ i'.expected ↔ (d, v) ∈ i.expected ∨ ∃ values, (d.name, values) ∈ fields ∧ v ∈ values) ∧
      i'.trailers = i.trailers := by
  induction fields generalizing i with
  | nil =>
    cases h
    exact ⟨fun d v => by simp, rfl⟩
  | cons f fields ih =>
    rw [foldlM_cons] at h
    obtain ⟨hf, hnodup⟩ := nodup_cons.1 hnodup
    have hf' : ∀ g ∈ fields, g.1 ≠ f.1 := fun g hg he => hf (he ▸ mem_map_of_mem hg)
    cases hone : headerField i f.1 f.2 with
    | error e => rw [hone] at h; cases h
    | ok i₁ =>
      rw [hone] at h
      rcases headerField_ok hone with ⟨d₁, v₁, hname, hvalues, rfl⟩ | ⟨hname, rfl⟩
      · have hfresh : ∀ e ∈ i.expected, e.1 ≠ d₁ := fun e he heq =>
          hnew e he f mem_cons_self (heq ▸ hname.symm)
        have hnew' : ∀ e ∈ assign i.expected d₁ v₁, ∀ g ∈ fields, e.1.name ≠ g.1 := by
          intro e he g hg
          rcases mem_assign.1 he with rfl | ⟨he, -⟩
          · exact fun heq => hf' g hg (heq.symm.trans hname.symm)
          · exact hnew e he g (mem_cons_of_mem f hg)
        obtain ⟨hmem, htr⟩ := ih hnodup h hnew'
        refine ⟨fun d v => ?_, by rw [htr]; exact addHasher_trailers i d₁⟩
        rw [hmem, mem_assign]
        constructor
        · rintro ((heq | ⟨he, -⟩) | ⟨values, hv, hm⟩)
          · cases heq
            exact .inr ⟨f.2, by rw [← hname]; exact mem_cons_self, by simp [hvalues]⟩
          · exact .inl he
          · exact .inr ⟨values, mem_cons_of_mem f hv, hm⟩
        · rintro (he | ⟨values, hv, hm⟩)
          · exact .inl (.inr ⟨he, hfresh _ he⟩)
          · rcases mem_cons.1 hv with heq | hv
            · have hd : d = d₁ := by
                have hn : d.name = d₁.name := (congrArg Prod.fst heq).trans hname
                have := supportedChecksum_name d
                rw [hn, supportedChecksum_name] at this
                exact (Option.some.inj this).symm
              have hval : values = [v₁] := (congrArg Prod.snd heq).trans hvalues
              rw [hval, mem_singleton] at hm
              exact .inl (.inl (by rw [hd, hm]))
            · exact .inr ⟨values, hv, hm⟩
      · obtain ⟨hmem, htr⟩ := ih hnodup h fun e he g hg => hnew e he g (mem_cons_of_mem f hg)
        refine ⟨fun d v => ?_, htr⟩
        rw [hmem]
        constructor
        · rintro (he | ⟨values, hv, hm⟩)
          · exact .inl he
          · exact .inr ⟨values, mem_cons_of_mem f hv, hm⟩
        · rintro (he | ⟨values, hv, hm⟩)
          · exact .inl he
          · rcases mem_cons.1 hv with heq | hv
            · exact absurd (congrArg Prod.fst heq).symm (hname d)
            · exact .inr ⟨values, hv, hm⟩

theorem names_ok {names : List Bytes} (h : names.foldlM trailerName i = .ok i') : i'.expected = i.expected ∧
      ∀ d, d ∈ i'.trailers ↔ d ∈ i.trailers ∨ ∃ name ∈ names, supportedChecksum (toLower (trimSpace name)) = some d := by
  induction names generalizing i with
  | nil =>
    cases h
    exact ⟨rfl, fun d => by simp⟩
  | cons name names ih =>
    rw [foldlM_cons] at h
    cases hone : trailerName i name with
    | error e => rw [hone] at h; cases h
    | ok i₁ =>
      rw [hone] at h
      obtain ⟨hexp, htr⟩ := ih h
      obtain ⟨d₁, hd₁, rfl⟩ : ∃ d₁, supportedChecksum (toLower (trimSpace name)) = some d₁ ∧
          i₁ = { i.addHasher d₁ with trailers := i.trailers ++ [d₁] } := by
        unfold trailerName at hone
        split at hone
        · cases hone
        · cases hone
        · next d₁ _ hs =>
          cases hone
          exact ⟨d₁, hs, rfl⟩
      refine ⟨hexp.trans (addHasher_expected i d₁), fun d => ?_⟩
      rw [htr]
      simp only [mem_append, mem_cons, not_mem_nil, false_or, exists_eq_or_imp, or_assoc, hd₁, Option.some.injEq, eq_comm (a := d)]

/-- What `newIntegrity` takes from a header it accepts. -/
structure Taken (h : Header) (i : Integrity) : Prop where
  expected : ∀ d v, (d, v) ∈ i.expected ↔ h.Declares d v
  trailers : ∀ d, d ∈ i.trailers ↔ Announced (h.get (ascii "x-amz-trailer")) d

theorem newIntegrity_ok (hi : newIntegrity h = .ok i) : Taken h i := by
  unfold newIntegrity at hi
  cases hfields : h.fields.foldlM (fun i f => headerField i f.1 f.2) ⟨[], [], []⟩ with
  | error e => rw [hfields] at hi; cases hi
  | ok i₁ =>
    rw [hfields] at hi
    simp only [bind, Except.bind] at hi
    cases hnames : (namesIn (h.get (ascii "x-amz-trailer"))).foldlM trailerName i₁ with
    | error e => rw [hnames] at hi; cases hi
    | ok i₂ =>
      rw [hnames] at hi
      have hi₂ : i₂ = i := by
        dsimp only at hi
        split at hi
        · cases hi
        · split at hi
          · cases hi
          · cases hi
            rfl
      subst hi₂
      obtain ⟨hexp, htr⟩ := fields_ok h.nodup hfields (by simp)
      obtain ⟨hexp', htr'⟩ := names_ok hnames
      refine ⟨fun d v => ?_, fun d => ?_⟩
      · rw [hexp', hexp]
        simp [Header.Declares]
      · rw [htr', htr]
        simp [Announced]

/-! ## What is verified -/

theorem trailers_ok {names : List Digest} {m m' : List (Digest × Bytes)} (h : names.foldlM (addTrailer trailer) m = .ok m') :
    (∀ d ∈ names, trailerGet trailer d ≠ [] ∧ (d, trailerGet trailer d) ∈ m') ∧
      (∀ e ∈ m, e.1 ∉ names → e ∈ m') ∧ ∀ e ∈ m', e ∈ m ∨ e.1 ∈ names ∧ e.2 = trailerGet trailer e.1 := by
  induction names generalizing m with
  | nil =>
    cases h
    exact ⟨by simp, fun e he _ => he, fun e he => .inl he⟩
  | cons d names ih =>
    rw [foldlM_cons] at h
    cases hone : addTrailer trailer m d with
    | error e => rw [hone] at h; cases h
    | ok m₁ =>
      rw [hone] at h
      obtain ⟨hall, hold, hnew⟩ := ih h
      unfold addTrailer at hone
      split at hone
      · cases hone
      · next hne =>
        cases hone
        refine ⟨fun d' hd' => ?_, fun e he hmem => ?_, fun e he => ?_⟩
        · rcases mem_cons.1 hd' with rfl | hd'
          · by_cases hin : d' ∈ names
            · exact hall d' hin
            · exact ⟨hne, hold _ (mem_assign.2 (.inl rfl)) hin⟩
          · exact hall d' hd'
        · rw [mem_cons, not_or] at hmem
          exact hold e (mem_assign.2 (.inr ⟨he, hmem.1⟩)) hmem.2
        · rcases hnew e he with he | ⟨hin, hv⟩
          · rcases mem_assign.1 he with rfl | ⟨he, -⟩
            · exact .inr ⟨mem_cons_self, rfl⟩
            · exact .inl he
          · exact .inr ⟨mem_cons_of_mem d hin, hv⟩

theorem compares_ok {m : List (Digest × Bytes)} (h : m.mapM (checkDigest i got) = .ok checks) :
    checks = m ∧ ∀ e ∈ m, e.1 ∈ i.h ∧ got e.1 = e.2 := by
  induction m generalizing checks with
  | nil =>
    cases h
    exact ⟨rfl, by simp⟩
  | cons e m ih =>
    rw [mapM_cons] at h
    cases hone : checkDigest i got e with
    | error err => rw [hone] at h; cases h
    | ok c =>
      rw [hone] at h
      cases hrest : m.mapM (checkDigest i got) with
      | error err => rw [hrest] at h; cases h
      | ok cs =>
        rw [hrest] at h
        cases h
        obtain ⟨rfl, hall⟩ := ih hrest
        unfold checkDigest at hone
        split at hone
        · cases hone
        · next hh =>
          split at hone
          · cases hone
          · next heq =>
            cases hone
            have heq : got e.1 = e.2 := not_not.1 heq
            refine ⟨by rw [heq], fun e' he' => ?_⟩
            rcases mem_cons.1 he' with rfl | he'
            · exact ⟨not_not.1 hh, heq⟩
            · exact hall e' he'

/-- What `verify` has compared: the trailers, and the header's digests that no trailer has replaced.
-/
structure Verified (i : Integrity) (trailer : List (Bytes × Bytes)) (got : Digest → Bytes) (checks : List (Digest × Bytes)) :
    Prop where
  trailers : ∀ d ∈ i.trailers, trailerGet trailer d ≠ [] ∧ d ∈ i.h ∧ got d = trailerGet trailer d
  expected : ∀ e ∈ i.expected, e.1 ∉ i.trailers → e.1 ∈ i.h ∧ got e.1 = e.2
  checks : ∀ e ∈ checks, e.1 ∈ i.h ∧ got e.1 = e.2

theorem verify_ok {o : MapOrder} (h : i.verify o trailer got = .ok checks) :
    Verified i trailer got checks := by
  unfold Integrity.verify at h
  cases htr : i.trailers.foldlM (addTrailer trailer) i.expected with
  | error e => rw [htr] at h; cases h
  | ok m =>
    rw [htr] at h
    obtain ⟨hall, hold, -⟩ := trailers_ok htr
    obtain ⟨rfl, hgot⟩ := compares_ok h
    have hgot' : ∀ e ∈ m, e.1 ∈ i.h ∧ got e.1 = e.2 := fun e he => hgot e ((o.perm m).mem_iff.2 he)
    exact ⟨fun d hd => ⟨(hall d hd).1, hgot' _ (hall d hd).2⟩, fun e he hne => hgot' e (hold e he hne), hgot⟩

end

end Pgvs3.Ingest
