import Pgvs3.Conc.Server
import Pgvs3.Origin.Keys
/-!
# Batch deletes at an S3 origin

`xmlText` is `xml.EscapeText` and the decoding at the other end.

The origin does what a POST lists and reports one result for every key that it has read, in any
order. `client.do` sends a POST again when its answer is lost, so that some keys may be gone before
the answer that counts.

The keys come from the XML of a `DeleteObjects` request (`s3/object.go:521-536`), and
`xml.Unmarshal` refuses the characters that `xml.Marshal` replaces: what was received can be sent.
-/

namespace Pgvs3.Origin

open Conc List

def deleteObjectsMax : Nat := 1000

/-- `isInCharacterRange`: what XML can carry. -/
def xmlChar (c : Char) : Bool :=
  c.toNat ∈ [0x09, 0x0a, 0x0d] || (0x20 ≤ c.toNat && c.toNat ≤ 0xd7ff) ||
    (0xe000 ≤ c.toNat && c.toNat ≤ 0xfffd) ||
    (0x10000 ≤ c.toNat && c.toNat ≤ 0x10ffff)

/-- What the origin reads of a key (`s3client/object.go:261-265`). -/
def xmlText (key : Text) : Text := key.map fun c => if xmlChar c then c else '�'

/-! ## The origin -/

inductive Verdict where
  | deleted
  | refused (code message : Text)
deriving DecidableEq, Repr

/-- `s3client/object.go:280-284`. -/
structure Outcome where
  key : Text
  verdict : Verdict
deriving DecidableEq, Repr

def noSuchKey : Text := "NoSuchKey".toList

def Outcome.absent (o : Outcome) : Bool :=
  match o.verdict with
  | .deleted => false
  | .refused code _ => code == noSuchKey

abbrev Objects := Text → Bool

def Objects.drop (objs : Objects) (key : Text) : Objects := fun m => m != key && objs m

def Objects.dropAll (objs : Objects)
    (keys : List Text) : Objects := fun m => !keys.contains m && objs m

def Outcome.apply (objs : Objects) (o : Outcome) : Objects :=
  match o.verdict with
  | .deleted => objs.drop o.key
  | .refused _ _ => objs

/-- The origin goes through the keys in some order. -/
def process (objs : Objects) (os : List Outcome) : Objects := os.foldl Outcome.apply objs

def Honest : Objects → List Outcome → Prop
  | _, [] => True
  | objs, o :: os => (o.absent = true → objs o.key = false) ∧ Honest (o.apply objs) os

/-- `s3client/object.go:271-274`. -/
inductive Posted where
  | answered (os : List Outcome)
  | failed
  | cancelled
deriving DecidableEq, Repr

inductive Deleted where
  | ok
  | failed
deriving DecidableEq, Repr

inductive DeleteStmt where
  /-- `POST /?delete` with the attempts of `client.do`. -/
  | post (keys : List Text)
  | delete (object : Text)

abbrev DeleteStmt.Ans : DeleteStmt → Type
  | .post _ => Posted
  | .delete _ => Deleted

/-- One result for every key that was read, and for no other. -/
structure Covers (keys : List Text) (os : List Outcome) : Prop where
  every : ∀ k ∈ keys, ∃ o ∈ os, o.key = k
  only : ∀ o ∈ os, o.key ∈ keys

/-- `lost` are the keys that attempts without an answer have deleted. -/
def servePost (keys : List Text) (objs : Objects) (r : Posted) (objs' : Objects) : Prop :=
  match r with
  | .answered reported =>
    ∃ lost done, lost ⊆ keys.map xmlText ∧ Covers (keys.map xmlText) done ∧
      Honest (objs.dropAll lost) done ∧
      objs' = process (objs.dropAll lost) done ∧ done.Perm reported
  | .failed | .cancelled => ∃ lost, lost ⊆ keys.map xmlText ∧ objs' = objs.dropAll lost

def serveDelete (object : Text) (objs : Objects) (r : Deleted) (objs' : Objects) : Prop :=
  match r with
  | .ok => objs' = objs.drop object
  | .failed => objs' = objs ∨ objs' = objs.drop object

def serve : (s : DeleteStmt) → Objects → s.Ans → Objects → Prop
  | .post keys => servePost keys
  | .delete object => serveDelete object

/-! ## The client -/

inductive DeleteError where
  /-- `s3: object key is required`. -/
  | keyRequired
  /-- `s3: DELETE key: code: message`. -/
  | refused (key code message : Text)
  /-- The request itself failed. -/
  | failed (object : Text)
deriving DecidableEq, Repr

abbrev DeleteReq := Prog DeleteStmt DeleteStmt.Ans

def send (s : DeleteStmt) : DeleteReq s.Ans := Prog.stmt s

/-- The errors of a response that count, each with its key. -/
def failures (os : List Outcome) : List (Text × DeleteError) :=
  os.filterMap fun o =>
    match o.verdict with
    | .deleted => none
    | .refused code message =>
      if code = noSuchKey then none
        else some (o.key, .refused o.key code (if message = [] then code else message))

/-- What the loop over the errors leaves for a key: the last one of its text. -/
def failureOf (os : List Outcome) (key : Text) : Option DeleteError :=
  ((failures os).reverse.find? fun f => f.1 == key).map (·.2)

/-- `none`: the request failed, or was cancelled (`true`) (`s3client/object.go:331-377`). -/
def deleteObjectsBatch (physical : List Text) :
    DeleteReq (Except Bool (List (Option DeleteError))) := do
  match ← send (.post physical) with
  | .answered os => return .ok (physical.map (failureOf os))
  | .failed => return .error false
  | .cancelled => return .error true

/-- `origin.go:475-477`. -/
def deleteOne (key : Text) : DeleteReq (Option DeleteError) :=
  match objectKey key with
  | none => return some .keyRequired
  | some object => do
    match ← send (.delete object) with
    | .ok => return none
    | .failed => return some (.failed object)

def deleteEach : List Text → DeleteReq (List (Option DeleteError))
  | [] => return []
  | k :: ks => do
    let e ← deleteOne k
    let es ← deleteEach ks
    return e :: es

/-- The results of a batch at the positions of its keys; a key that is not sent keeps its own error.
-/
def place : List Text → List (Option DeleteError) → List (Option DeleteError)
  | [], _ => []
  | k :: ks, es =>
    match objectKey k, es with
    | some _, e :: es => e :: place ks es
    | some _, [] => none :: place ks []
    | none, es => some .keyRequired :: place ks es

/-- One turn of the loop; `none` when the context has ended. -/
def deleteBatch (keys : List Text) : DeleteReq (Option (List (Option DeleteError))) := do
  if keys.filterMap objectKey = [] then return some (place keys [])
  else
    match ← deleteObjectsBatch (keys.filterMap objectKey) with
    | .ok es => return some (place keys es)
    | .error true => return none
    | .error false =>
      let es ← deleteEach keys
      return some es

def deleteBatches : List (List Text) → DeleteReq (Option (List (Option DeleteError)))
  | [] => return some []
  | b :: bs => do
    match ← deleteBatch b with
    | none => return none
    | some es =>
      match ← deleteBatches bs with
      | none => return none
      | some es' => return some (es ++ es')

/-- `s3client/object.go:289-329`. -/
def deleteObjects (keys : List Text) : DeleteReq (Option (List (Option DeleteError))) :=
  deleteBatches (cut deleteObjectsMax keys)

/-- `origin.go:270-295`. -/
def deleteMany (keys : List Text) : DeleteReq (List (Option DeleteError)) := do
  match ← deleteObjects keys with
  | some errs => return errs
  | none => deleteEach keys

/-! ## What the results promise -/

/-- A key without an error has gone, under its physical name, and nothing else has. -/
structure Truthful (keys : List Text) (objs : Objects) (errs : List (Option DeleteError))
    (objs' : Objects) : Prop where
  gone : List.Forall₂ (fun k e => e = none → ∃ object, objectKey k = some object ∧
    objs' object = false) keys errs
  only : ∀ m, objs m = true → objs' m = false → ∃ k ∈ keys, objectKey k = some m

variable {o : Outcome} {α : Type} {bs : List (List Text)}

/-! ## Objects only go -/

variable {objs objs' : Objects} {m key : Text} {keys : List Text} {os : List Outcome}

theorem Objects.drop_eq_false : objs.drop key m = false ↔ m = key ∨ objs m = false := by
  simp only [Objects.drop, Bool.and_eq_false_iff, bne_eq_false_iff_eq]

theorem Objects.dropAll_eq_false : objs.dropAll keys m = false ↔ m ∈ keys ∨ objs m = false := by
  simp only [Objects.dropAll, Bool.and_eq_false_iff, Bool.not_eq_false', contains_iff_mem]

theorem Outcome.apply_of_false (o : Outcome) (h : objs m = false) : o.apply objs m = false := by
  cases hv : o.verdict with
  | deleted =>
    rw [Outcome.apply, hv]
    exact Objects.drop_eq_false.2 (.inr h)
  | refused code message =>
    rw [Outcome.apply, hv]
    exact h

theorem process_of_false (os : List Outcome) (h : objs m = false) : process objs os m = false := by
  induction os generalizing objs with
  | nil => exact h
  | cons o os ih => exact ih (o.apply_of_false h)

theorem mem_of_process (h : objs m = true) (hp : process objs os m = false) :
    ∃ o ∈ os, o.key = m := by
  induction os generalizing objs with
  | nil => simp [process, h] at hp
  | cons o os ih =>
    cases ha : o.apply objs m with
    | true =>
      obtain ⟨o', ho', hk⟩ := ih ha hp
      exact ⟨o', mem_cons_of_mem o ho', hk⟩
    | false =>
      refine ⟨o, mem_cons_self, ?_⟩
      cases hv : o.verdict with
      | deleted =>
        rw [Outcome.apply, hv] at ha
        rcases Objects.drop_eq_false.1 ha with rfl | hf
        · rfl
        · simp [h] at hf
      | refused code message =>
        rw [Outcome.apply, hv] at ha
        simp [h] at ha

/-- A key that is reported as deleted or as absent is not there at the end. -/
theorem Honest.gone (hh : Honest objs os) (ho : o ∈ os)
    (hv : o.verdict = .deleted ∨ o.absent = true) :
    process objs os o.key = false := by
  induction os generalizing objs with
  | nil => cases ho
  | cons o' os ih =>
    rcases mem_cons.1 ho with rfl | ho
    · have hgone : o.apply objs o.key = false := by
        rcases hv with hv | hv
        · rw [Outcome.apply, hv]
          exact Objects.drop_eq_false.2 (.inl rfl)
        · exact o.apply_of_false (hh.1 hv)
      exact process_of_false os hgone
    · exact ih hh.2 ho

variable {s : DeleteStmt} {r : s.Ans} {p : DeleteReq α} {a : α}

theorem serve_of_false (h : serve s objs r objs') (hm : objs m = false) : objs' m = false := by
  cases s with
  | post keys =>
    cases r with
    | answered reported =>
      obtain ⟨lost, done, -, -, -, rfl, -⟩ := h
      exact process_of_false done (Objects.dropAll_eq_false.2 (.inr hm))
    | failed | cancelled =>
      obtain ⟨lost, -, rfl⟩ := h
      exact Objects.dropAll_eq_false.2 (.inr hm)
  | delete object =>
    cases r with
    | ok => rw [show objs' = objs.drop object from h]; exact Objects.drop_eq_false.2 (.inr hm)
    | failed =>
      rcases h with rfl | rfl
      · exact hm
      · exact Objects.drop_eq_false.2 (.inr hm)

def DeleteStmt.names : DeleteStmt → List Text
  | .post keys => keys.map xmlText
  | .delete object => [object]

theorem serve_only (h : serve s objs r objs') (hm : objs m = true) (hm' : objs' m = false) :
    m ∈ s.names := by
  cases s with
  | post keys =>
    cases r with
    | answered reported =>
      obtain ⟨lost, done, hlost, hcov, -, rfl, -⟩ := h
      cases hd : objs.dropAll lost m with
      | true =>
        obtain ⟨o, ho, rfl⟩ := mem_of_process hd hm'
        exact hcov.only o ho
      | false =>
        rcases Objects.dropAll_eq_false.1 hd with hl | hf
        · exact hlost hl
        · simp [hm] at hf
    | failed | cancelled =>
      obtain ⟨lost, hlost, rfl⟩ := h
      rcases Objects.dropAll_eq_false.1 hm' with hl | hf
      · exact hlost hl
      · simp [hm] at hf
  | delete object =>
    have hdrop : objs.drop object m = false → m ∈ [object] := by
      intro hf
      rcases Objects.drop_eq_false.1 hf with rfl | hf
      · exact mem_cons_self
      · simp [hm] at hf
    cases r with
    | ok =>
      have hok : objs' = objs.drop object := h
      exact hdrop (hok ▸ hm')
    | failed =>
      rcases h with rfl | rfl
      · simp [hm] at hm'
      · exact hdrop hm'

theorem runs_of_false (h : Runs serve p objs a objs') (hm : objs m = false) : objs' m = false := by
  induction h with
  | ret => exact hm
  | ask hs _ ih => exact ih (serve_of_false hs hm)

theorem runs_only {L : Text → Prop} (hp : p.All fun s => ∀ n ∈ s.names, L n)
    (h : Runs serve p objs a objs') (hm : objs m = true) (hm' : objs' m = false) : L m := by
  induction h with
  | ret => simp [hm] at hm'
  | @ask s k r w w' w'' a hs _ ih =>
    cases hw : w' m with
    | true => exact ih (hp.2 r) hw hm'
    | false => exact hp.1 m (serve_only hs hm hw)

/-! ## What is named -/

variable {ks : List Text} {k : Text}

def Listed (keys : List Text) (m : Text) : Prop := ∃ k ∈ keys, objectKey k = some m

/-- XML carries the physical names of the list. -/
def Carried (keys : List Text) : Prop :=
  ∀ k ∈ keys, ∀ object, objectKey k = some object → xmlText object = object

def Names (keys : List Text) (s : DeleteStmt) : Prop := ∀ n ∈ s.names, Listed keys n

theorem deleteOne_names (hk : k ∈ keys) : (deleteOne k).All (Names keys) := by
  unfold deleteOne
  split
  · trivial
  · next object ho =>
    refine Prog.All.stmt ?_ fun r => ?_
    · intro n hn
      rw [DeleteStmt.names, mem_singleton] at hn
      exact ⟨k, hk, hn ▸ ho⟩
    · cases r <;> trivial

theorem deleteEach_names (h : ks ⊆ keys) : (deleteEach ks).All (Names keys) := by
  induction ks with
  | nil => trivial
  | cons k ks ih =>
    refine Prog.All.bind (deleteOne_names (h mem_cons_self)) fun e => ?_
    exact Prog.All.bind (ih fun x hx => h (mem_cons_of_mem k hx)) fun es => trivial

theorem deleteBatch_names (hc : Carried keys) (h : ks ⊆ keys) :
    (deleteBatch ks).All (Names keys) := by
  unfold deleteBatch
  split
  · trivial
  · refine Prog.All.bind (Prog.All.stmt ?_ fun r => ?_) fun r => ?_
    · intro n hn
      simp only [DeleteStmt.names, mem_map, mem_filterMap] at hn
      obtain ⟨object, ⟨k, hk, ho⟩, rfl⟩ := hn
      exact ⟨k, h hk, by rw [hc k (h hk) object ho, ho]⟩
    · cases r <;> trivial
    · match r with
      | .ok es => trivial
      | .error true => trivial
      | .error false => exact Prog.All.bind (deleteEach_names h) fun es => trivial

theorem deleteBatches_names (hc : Carried keys) (h : bs.flatten ⊆ keys) :
    (deleteBatches bs).All (Names keys) := by
  induction bs with
  | nil => trivial
  | cons b bs ih =>
    rw [flatten_cons, append_subset] at h
    refine Prog.All.bind (deleteBatch_names hc h.1) fun r => ?_
    cases r with
    | none => trivial
    | some es =>
      refine Prog.All.bind (ih h.2) fun r => ?_
      cases r <;> trivial

theorem flatten_batches (keys : List Text) : (cut deleteObjectsMax keys).flatten = keys :=
  flatten_cut (by decide) keys

theorem deleteMany_names (hc : Carried keys) : (deleteMany keys).All (Names keys) := by
  refine Prog.All.bind (deleteBatches_names hc
    (by rw [flatten_batches]; exact List.Subset.refl keys)) fun r => ?_
  cases r with
  | none => exact deleteEach_names (List.Subset.refl keys)
  | some errs => trivial

/-! ## What has gone -/

variable {w w' : Objects}

def Gone (w : Objects) (k : Text) (e : Option DeleteError) : Prop :=
  e = none → ∃ object, objectKey k = some object ∧ w object = false

variable {es : List (Option DeleteError)}

theorem gone_of_runs (h : List.Forall₂ (Gone w) ks es) (hr : Runs serve p w a w') :
    List.Forall₂ (Gone w') ks es := by
  refine h.imp fun k e hg he => ?_
  obtain ⟨object, ho, hw⟩ := hg he
  exact ⟨object, ho, runs_of_false hr hw⟩

theorem deleteOne_gone {e : Option DeleteError} (h : Runs serve (deleteOne k) w e w') :
    Gone w' k e := by
  intro he
  subst he
  unfold deleteOne at h
  split at h
  · cases h
  · next object ho =>
    obtain ⟨r, w₁, hs, hk⟩ := h.of_bind
    cases hs with
    | @ask _ _ r' _ _ _ _ hserve hret =>
      cases hret
      cases r with
      | ok =>
        cases hk
        have hok : w' = w.drop object := hserve
        exact ⟨object, ho, hok ▸ Objects.drop_eq_false.2 (.inl rfl)⟩
      | failed => cases hk

theorem deleteEach_gone (h : Runs serve (deleteEach ks) w es w') :
    List.Forall₂ (Gone w') ks es := by
  induction ks generalizing w es with
  | nil =>
    cases h
    exact .nil
  | cons k ks ih =>
    obtain ⟨e, w₁, hone, hrest⟩ := h.of_bind
    obtain ⟨es', w₂, heach, hret⟩ := hrest.of_bind
    cases hret
    obtain ⟨hk, -⟩ := forall₂_cons.1 (gone_of_runs (.cons (deleteOne_gone hone) .nil) heach)
    exact .cons hk (ih heach)

theorem place_map (f : Text → Option DeleteError) (ks : List Text) :
    place ks ((ks.filterMap objectKey).map f) =
      ks.map fun k => match objectKey k with
        | some object => f object
        | none => some .keyRequired := by
  induction ks with
  | nil => rfl
  | cons k ks ih =>
    cases ho : objectKey k with
    | none | some => simp [place, ho, ih]

/-- A key for which no error is found has been deleted, or was not there. -/
theorem failureOf_none (h : failureOf os o.key = none) (ho : o ∈ os) :
    o.verdict = .deleted ∨ o.absent = true := by
  cases hv : o.verdict with
  | deleted => exact .inl rfl
  | refused code message =>
    right
    by_contra hne
    have hcode : code ≠ noSuchKey := by
      simpa [Outcome.absent, hv] using hne
    rw [failureOf, Option.map_eq_none_iff, find?_eq_none] at h
    refine h (o.key, .refused o.key code (if message = [] then code else message)) ?_ (by simp)
    rw [mem_reverse, failures, mem_filterMap]
    exact ⟨o, ho, by simp [hv, hcode]⟩

theorem deleteBatch_gone (hc : Carried keys) (hks : ks ⊆ keys)
    (h : Runs serve (deleteBatch ks) w (some es) w') : List.Forall₂ (Gone w') ks es := by
  unfold deleteBatch at h
  split at h
  · next hnil =>
    cases h
    have hplace := place_map (fun _ => none) ks
    rw [hnil, map_nil] at hplace
    rw [hplace, forall₂_map_right_iff, forall₂_same]
    intro k hk he
    have hnone : objectKey k = none := filterMap_eq_nil_iff.1 hnil k hk
    simp [hnone] at he
  · obtain ⟨r, w₁, hbatch, hrest⟩ := h.of_bind
    obtain ⟨r', w₂, hpost, hret⟩ := hbatch.of_bind
    cases hpost with
    | ask hserve hk =>
      cases hk
      cases r' with
      | answered os =>
        cases hret
        cases hrest
        obtain ⟨lost, done, -, hcov, hhonest, rfl, hperm⟩ := hserve
        rw [place_map, forall₂_map_right_iff, forall₂_same]
        intro k hk he
        cases ho : objectKey k with
        | none => simp [ho] at he
        | some object =>
          simp only [ho] at he
          obtain ⟨o, hmem, hkey⟩ := hcov.every (xmlText object)
            (mem_map_of_mem (mem_filterMap.2 ⟨k, hk, ho⟩))
          rw [hc k (hks hk) object ho] at hkey
          subst hkey
          exact ⟨_, rfl, hhonest.gone hmem (failureOf_none he (hperm.mem_iff.1 hmem))⟩
      | failed =>
        cases hret
        obtain ⟨es', w₃, heach, hret⟩ := hrest.of_bind
        cases hret
        exact deleteEach_gone heach
      | cancelled =>
        cases hret
        cases hrest

theorem deleteBatches_gone (hc : Carried keys) (hbs : bs.flatten ⊆ keys)
    (h : Runs serve (deleteBatches bs) w (some es) w') :
    List.Forall₂ (Gone w') bs.flatten es := by
  induction bs generalizing w es with
  | nil =>
    cases h
    exact .nil
  | cons b bs ih =>
    rw [flatten_cons, append_subset] at hbs
    obtain ⟨r, w₁, hb, hrest⟩ := h.of_bind
    cases r with
    | none => cases hrest
    | some es₁ =>
      obtain ⟨r, w₂, hbs', hret⟩ := hrest.of_bind
      cases r with
      | none => cases hret
      | some es₂ =>
        cases hret
        exact rel_append (gone_of_runs (deleteBatch_gone hc hbs.1 hb) hbs') (ih hbs.2 hbs')

theorem deleteMany_gone (hc : Carried keys) {errs : List (Option DeleteError)}
    (h : Runs serve (deleteMany keys) w errs w') : List.Forall₂ (Gone w') keys errs := by
  obtain ⟨r, w₁, hobjs, hrest⟩ := h.of_bind
  cases r with
  | none => exact deleteEach_gone hrest
  | some es =>
    cases hrest
    have hsub : (cut deleteObjectsMax keys).flatten ⊆ keys := by
      rw [flatten_batches]
      exact List.Subset.refl keys
    have hgone := deleteBatches_gone hc hsub hobjs
    rwa [flatten_batches] at hgone

/-! ## Keys that were received -/

/-- Every run, with lost answers, fallbacks and results in any order. -/
def TruthfulRuns (keys : List Text) : Prop :=
  ∀ objs errs objs', Runs serve (deleteMany keys) objs errs objs' → Truthful keys objs errs objs'

/-- What the gateway makes of the keys that a request lists (`Tier.DeleteMany`,
`origin.DeleteMany`). -/
def Config.sent (o : Config) (bucket : Text) (keys : List Text) : List Text :=
  keys.map fun key => o.physicalKey (Pair.cacheKey ⟨bucket, key⟩)

/-- What `xml.Unmarshal` lets through, and the handler: a key is not empty. -/
def Received (key : Text) : Prop := key ≠ [] ∧ ∀ c ∈ key, xmlChar c = true

variable {o : Config} {bucket : Text}

theorem xmlText_of_chars (h : ∀ c ∈ key, xmlChar c = true) : xmlText key = key :=
  (map_congr_left fun c hc => by rw [if_pos (h c hc)]).trans (map_id' key)

theorem xmlChar_of_validName (hb : validName bucket = true) :
    ∀ c ∈ bucket, xmlChar c = true ∧ c ≠ '/' := by
  intro c hc
  have hvalid := List.all_eq_true.1 (Bool.and_eq_true_iff.1 hb).2 c hc
  simp only [validNameChar, Bool.or_eq_true, Bool.and_eq_true, decide_eq_true_eq,
    beq_iff_eq] at hvalid
  rcases hvalid with (((hrange | hrange) | rfl) | rfl) | rfl
  · have hlo : 97 ≤ c.toNat := hrange.1
    have hhi : c.toNat ≤ 122 := hrange.2
    refine ⟨by simp [xmlChar]; omega, ?_⟩
    rintro rfl
    exact absurd hlo (by decide)
  · have hlo : 48 ≤ c.toNat := hrange.1
    have hhi : c.toNat ≤ 57 := hrange.2
    refine ⟨by simp [xmlChar]; omega, ?_⟩
    rintro rfl
    exact absurd hlo (by decide)
  · decide
  · decide
  · decide

theorem mem_prefixKey {pfx : Text} {c : Char} (h : c ∈ prefixKey pfx key) :
    c ∈ pfx ∨ c = '/' ∨ c ∈ key := by
  unfold prefixKey at h
  split at h
  · exact .inr (.inr h)
  · simpa using h

theorem carried_sent (hb : validName bucket = true) (hpre : ∀ c ∈ o.configPrefix, xmlChar c = true)
    (hkeys : ∀ key ∈ keys, Received key) : Carried (o.sent bucket keys) := by
  intro k hk object hobject
  obtain ⟨key, hkey, rfl⟩ := mem_map.1 hk
  have hbucket := xmlChar_of_validName hb
  have hpair : Pair.Valid ⟨bucket, key⟩ :=
    ⟨by rintro (rfl : bucket = []); exact absurd hb (by decide), fun hs => (hbucket '/' hs).2 rfl,
      (hkeys key hkey).1⟩
  rw [objectKey_eq_some hobject, physicalKey_cacheKey o hpair]
  refine xmlText_of_chars fun c hc => ?_
  -- a character of the name comes from the prefix, the bucket or the key, or is a slash
  rcases mem_prefixKey ((dropWhile_sublist _).subset hc) with hc | rfl | hc
  · exact hpre c (Data.mem_of_mem_trim _ hc)
  · decide
  · split at hc
    · exact (hkeys key hkey).2 c hc
    · rcases mem_append.1 hc with hc | hc
      · exact (hbucket c hc).1
      · rcases mem_cons.1 hc with rfl | hc
        · decide
        · exact (hkeys key hkey).2 c hc

/-- **Batch deletes.** For every origin, also one that loses answers, every list of keys that a
request can carry and every prefix that XML can carry, a key that is reported as deleted has gone,
and no other has. -/
theorem deleteMany_truthful (o : Config) (bucket : Text) (keys : List Text)
    (hb : validName bucket = true) (hpre : ∀ c ∈ o.configPrefix, xmlChar c = true)
    (hkeys : ∀ key ∈ keys, Received key) : TruthfulRuns (o.sent bucket keys) := by
  have hc := carried_sent hb hpre hkeys
  intro objs errs objs' hrun
  exact ⟨deleteMany_gone hc hrun, fun m hm hm' => runs_only (deleteMany_names hc) hrun hm hm'⟩

/-- A key listed twice, another script, a slash in front. -/
theorem deleteMany_three : TruthfulRuns
    (Config.sent ⟨.s3 ⟨"https".toList, "origin".toList, "b".toList, true⟩, "/p/".toList, false⟩
    "docs".toList ["a".toList, "été".toList, "/x".toList, "a".toList]) :=
  deleteMany_truthful _ _ _ (by decide) (by simp [xmlChar]) (by simp [Received, xmlChar])

end Pgvs3.Origin
