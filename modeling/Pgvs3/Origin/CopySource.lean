import Pgvs3.Origin.Keys
/-!
# Copy sources

`parseCopySource` (`s3/object.go:917-937`) reads what a client writes with `awsEncode`
(`s3/request.go:266-285`). It decodes the header before it cuts a query off, so that a `?` of the
key ends it.
-/

namespace Pgvs3.Origin

open List

inductive CopySourceError where
  | invalidRequest (message : String)
  | invalidBucketName
deriving DecidableEq, Repr

/-- `request.go:266-285`. -/
def awsEncode (s : Bytes) (encodeSlash : Bool) : Text := escape (fun b => unreserved b || (b == 47 && !encodeSlash)) s

def ascii (s : Bytes) : Text := s.map fun b => Char.ofNat b.toNat

/-- `s3/object.go:917-937`. -/
def parseCopySource (v : Text) (defaultBucket : Bytes) : Except CopySourceError (Bytes × Bytes) :=
  if v = [] then .error (.invalidRequest "missing x-amz-copy-source")
  else match unescape v with
    | none => .error (.invalidRequest "invalid x-amz-copy-source")
    | some decoded =>
      let decoded := decoded.takeWhile (· ≠ 63)
      let decoded := if decoded.head? = some 47 then decoded.tail else decoded
      let found := match Data.cut 47 decoded with
        | none => (defaultBucket, decoded)
        | some (bucket, key) => if key = [] then (defaultBucket, decoded) else (bucket, key)
      if validName (ascii found.1) then .ok found else .error .invalidBucketName

variable {b k : Bytes} {x : UInt8}

theorem unescape_awsEncode (s : Bytes) : unescape (awsEncode s false) = some s := unescape_escape rfl s

theorem kept_of_valid (hb : validName (ascii b) = true) (hx : x ∈ b) : unreserved x = true ∧ x ≠ 47 ∧ x ≠ 63 := by
  have hbyte : ∀ n : Fin 256, validNameChar (Char.ofNat n) = true → unreserved (.ofFin n) = true ∧
      UInt8.ofFin n ≠ 47 ∧ UInt8.ofFin n ≠ 63 := by
    decide +kernel
  simp only [validName, ascii, Bool.and_eq_true, all_eq_true, mem_map, forall_exists_index, and_imp, forall_apply_eq_imp_iff₂] at hb
  exact hbyte x.toFin (hb.2 x hx)

theorem awsEncode_valid (hb : validName (ascii b) = true) (s : Bytes) :
    awsEncode (b ++ 47 :: s) false = ascii b ++ '/' :: awsEncode s false := by
  have h : ∀ x ∈ b, escapeByte (fun b => unreserved b || (b == 47 && !false)) x = [Char.ofNat x.toNat] := fun x hx => by
    simp [escapeByte, kept_of_valid hb hx]
  rw [awsEncode, escape, flatMap_append, flatMap_congr h, ascii, map_eq_flatMap]
  rfl

/-- What is left when the query and the slash in front are off. -/
theorem found_key (hb : validName (ascii b) = true) (defaultBucket : Bytes) {v : Text}
    (hv : v = '/' :: ascii b ++ '/' :: awsEncode k false ∨
    v = ascii b ++ '/' :: awsEncode k false) : parseCopySource v defaultBucket =
      if k.takeWhile (· ≠ 63) = [] then
        if validName (ascii defaultBucket) then .ok (defaultBucket, b ++ [47]) else .error .invalidBucketName
      else .ok (b, k.takeWhile (· ≠ 63)) := by
  have hne : b ≠ [] := by rintro rfl; simp [validName, ascii] at hb
  have htake : (b ++ 47 :: k).takeWhile (· ≠ 63) = b ++ 47 :: k.takeWhile (· ≠ 63) := by
    rw [takeWhile_append_of_pos fun x hx => by simpa using (kept_of_valid hb hx).2.2, takeWhile_cons_of_pos (by decide)]
  have hcut := Data.cut_append (fun hm => (kept_of_valid hb hm).2.1 rfl) (k.takeWhile (· ≠ 63))
  have hhead : (b ++ 47 :: k.takeWhile (· ≠ 63)).head? ≠ some 47 := by
    obtain ⟨x, t, rfl⟩ := exists_cons_of_ne_nil hne
    simpa using (kept_of_valid hb mem_cons_self).2.1
  have hdec : ∃ decoded, unescape v = some decoded ∧ (decoded = 47 :: (b ++ 47 :: k) ∨ decoded = b ++ 47 :: k) := by
    rw [cons_append, ← awsEncode_valid hb] at hv
    rcases hv with rfl | rfl
    · exact ⟨_, unescape_awsEncode (47 :: (b ++ 47 :: k)), .inl rfl⟩
    · exact ⟨_, unescape_awsEncode _, .inr rfl⟩
  obtain ⟨decoded, hd, hdec⟩ := hdec
  have hrest : (if (decoded.takeWhile (· ≠ 63)).head? = some 47 then (decoded.takeWhile (· ≠ 63)).tail
      else decoded.takeWhile (· ≠ 63)) = b ++ 47 :: k.takeWhile (· ≠ 63) := by
    rcases hdec with rfl | rfl
    · rw [takeWhile_cons_of_pos (by decide), head?_cons, if_pos rfl, tail_cons, htake]
    · rw [htake, if_neg hhead]
  rw [parseCopySource, if_neg (by rcases hv with rfl | rfl <;> simp)]
  simp only [hd, hrest, hcut]
  generalize k.takeWhile (· ≠ 63) = t
  split
  · next ht => rw [ht]
  · rfl

/-- A copy source reads back exactly if its key has no question mark. -/
theorem copySource_round_trip_iff (hb : validName (ascii b) = true) (hk : k ≠ []) (defaultBucket : Bytes) :
    parseCopySource ('/' :: ascii b ++ '/' :: awsEncode k false) defaultBucket = .ok (b, k) ∧
      parseCopySource (ascii b ++ '/' :: awsEncode k false) defaultBucket = .ok (b, k) ↔ 63 ∉ k := by
  rw [found_key hb _ (.inl rfl), found_key hb _ (.inr rfl), and_self]
  constructor
  · intro h hm
    split at h
    · split at h
      · simp only [Except.ok.injEq, Prod.mk.injEq] at h
        rcases mem_append.1 (h.2 ▸ hm) with hm | hm
        · exact (kept_of_valid hb hm).2.2 rfl
        · simp at hm
      · cases h
    · simp only [Except.ok.injEq, Prod.mk.injEq, true_and] at h
      have := mem_takeWhile_imp (h ▸ hm)
      simp at this
  · intro hm
    have htake : k.takeWhile (· ≠ 63) = k := takeWhile_eq_self_iff.2 fun x hx => by simpa using ne_of_mem_of_not_mem hx hm
    rw [htake, if_neg hk]

/-- `/b/a%20%25` -/
theorem encoded_key_read : parseCopySource ('/' :: ascii [98] ++ '/' :: awsEncode [97, 32, 37] false) [] = .ok ([98], [97, 32, 37]) :=
  ((copySource_round_trip_iff (by decide) (by decide) []).2 (by decide)).1

/-- The key `a?b` is read as `a`. -/
theorem question_mark_ends_key : ¬ ∀ (b k defaultBucket : Bytes), validName (ascii b) = true → k ≠ [] →
    parseCopySource ('/' :: ascii b ++ '/' :: awsEncode k false) defaultBucket = .ok (b, k) ∧
      parseCopySource (ascii b ++ '/' :: awsEncode k false) defaultBucket = .ok (b, k) := by
  intro h
  exact absurd (h [98] [97, 63, 98] [] (by decide) (by decide)).1 (by decide)

end Pgvs3.Origin
