import Pgvs3.Data.Bytes
/-!
# The binary COPY format

A stream is the signature, a flags field, a header extension and then tuples: the number of fields
as an `int16`, each field as an `int32` length and its bytes, with length -1 for NULL. The field
count -1 ends the stream.
-/

namespace Pgvs3

open List Option

/-- A field; `none` is NULL. -/
abbrev CopyField := Option Bytes

def copySignature : Bytes := [0x50, 0x47, 0x43, 0x4F, 0x50, 0x59, 0x0A, 0xFF, 0x0D, 0x0A, 0x00]

def parseField (bs : Bytes) : Option (CopyField × Bytes) :=
  if bs.length < 4 then none
  else
    let n := ofBigEndian (bs.take 4)
    if n = 0xFFFFFFFF then some (none, bs.drop 4)
    else if 0x80000000 ≤ n ∨ (bs.drop 4).length < n then none
    else some (some ((bs.drop 4).take n), (bs.drop 4).drop n)

def parseFields : Nat → Bytes → Option (List CopyField × Bytes)
  | 0, bs => some ([], bs)
  | n + 1, bs => do
    let (x, bs) ← parseField bs
    let (xs, bs) ← parseFields n bs
    return (x :: xs, bs)

/-- The tuples up to the trailer, after which nothing may follow. -/
def parseTuples : Nat → Bytes → Option (List (List CopyField))
  | 0, _ => none
  | fuel + 1, bs =>
    if bs.length < 2 then none
    else
      let n := ofBigEndian (bs.take 2)
      if n = 0xFFFF then if bs.length = 2 then some [] else none
      else do
        let (xs, bs) ← parseFields n (bs.drop 2)
        let ts ← parseTuples fuel bs
        return xs :: ts

/-- The signature, flags without a critical bit, the header extension, the tuples. -/
def parseCopy (bs : Bytes) : Option (List (List CopyField)) :=
  if bs.length < 19 ∨ bs.take 11 ≠ copySignature ∨ 0x10000 ≤ ofBigEndian ((bs.drop 11).take 4) then none
  else
    let extension := ofBigEndian ((bs.drop 15).take 4)
    if (bs.drop 19).length < extension then none
    else parseTuples bs.length ((bs.drop 19).drop extension)

/-! ## Writing -/

def fieldBytes (x : Bytes) : Bytes := bigEndian 4 x.length ++ x

def tupleBytes (xs : List Bytes) : Bytes := bigEndian 2 xs.length ++ (xs.map fieldBytes).flatten

def plainHeader : Bytes := copySignature ++ bigEndian 4 0 ++ bigEndian 4 0

def endMarker : Bytes := [0xFF, 0xFF]

/-- The fields and their number fit their length fields. -/
def Fits (xs : List Bytes) : Prop := xs.length < 0x8000 ∧ ∀ x ∈ xs, x.length < 0x80000000

theorem parseField_fieldBytes {x : Bytes} (h : x.length < 0x80000000) (bs : Bytes) :
    parseField (fieldBytes x ++ bs) = some (some x, bs) := by
  have htake : (fieldBytes x ++ bs).take 4 = bigEndian 4 x.length := by
    rw [fieldBytes, append_assoc, take_left' (length_bigEndian 4 _)]
  have hdrop : (fieldBytes x ++ bs).drop 4 = x ++ bs := by
    rw [fieldBytes, append_assoc, drop_left' (length_bigEndian 4 _)]
  have hn : ofBigEndian (bigEndian 4 x.length) = x.length := ofBigEndian_bigEndian (by omega)
  have hlen : ¬ (fieldBytes x ++ bs).length < 4 := by simp [fieldBytes]
  simp only [parseField, if_neg hlen, htake, hdrop, hn]
  rw [if_neg (by omega), if_neg (by simp; omega), take_left, drop_left]

theorem parseFields_map {xs : List Bytes} (h : ∀ x ∈ xs, x.length < 0x80000000) (bs : Bytes) :
    parseFields xs.length ((xs.map fieldBytes).flatten ++ bs) = some (xs.map some, bs) := by
  induction xs with
  | nil => rfl
  | cons x xs ih =>
    have hx := parseField_fieldBytes (h x mem_cons_self) ((xs.map fieldBytes).flatten ++ bs)
    have hxs := ih fun y hy => h y (mem_cons_of_mem x hy)
    simp only [map_cons, flatten_cons, length_cons, append_assoc, parseFields, hx, bind_eq_bind, bind_some, hxs]
    rfl

theorem parseTuples_flatten {ts : List (List Bytes)} (h : ∀ t ∈ ts, Fits t) {fuel : Nat} (hf : ts.length < fuel) :
    parseTuples fuel ((ts.map tupleBytes).flatten ++ endMarker) = some (ts.map (·.map some)) := by
  induction ts generalizing fuel with
  | nil =>
    obtain ⟨fuel, rfl⟩ : ∃ k, fuel = k + 1 := ⟨fuel - 1, by simp at hf; omega⟩
    have hend : ofBigEndian [255, 255] = 0xFFFF := by decide
    simp [parseTuples, endMarker, hend]
  | cons t ts ih =>
    obtain ⟨fuel, rfl⟩ : ∃ k, fuel = k + 1 := ⟨fuel - 1, by simp at hf; omega⟩
    obtain ⟨hcount, hfields⟩ := h t mem_cons_self
    have hts := @ih (fun u hu => h u (mem_cons_of_mem t hu)) fuel (by simpa using hf)
    generalize hrest : (ts.map tupleBytes).flatten ++ endMarker = rest at hts
    have hbs : ((t :: ts).map tupleBytes).flatten ++ endMarker = bigEndian 2 t.length ++ ((t.map fieldBytes).flatten ++ rest) := by
      simp only [map_cons, flatten_cons, tupleBytes, append_assoc, hrest]
    have hn : ofBigEndian (bigEndian 2 t.length) = t.length := ofBigEndian_bigEndian (by omega)
    have hlen : ¬ (bigEndian 2 t.length ++ ((t.map fieldBytes).flatten ++ rest)).length < 2 := by
      rw [length_append, length_bigEndian]
      omega
    rw [hbs]
    simp only [parseTuples, if_neg hlen, take_left' (length_bigEndian 2 t.length), drop_left' (length_bigEndian 2 t.length), hn]
    rw [if_neg (by omega), parseFields_map hfields rest]
    simp only [bind_eq_bind, bind_some, hts]
    rfl

theorem length_tuples_le (ts : List (List Bytes)) : ts.length ≤ (ts.map tupleBytes).flatten.length := by
  induction ts with
  | nil => simp
  | cons t ts ih =>
    simp only [map_cons, flatten_cons, length_append, length_cons, tupleBytes, length_bigEndian]
    omega

theorem parseCopy_flatten {ts : List (List Bytes)} (h : ∀ t ∈ ts, Fits t) :
    parseCopy (plainHeader ++ (ts.map tupleBytes).flatten ++ endMarker) = some (ts.map (·.map some)) := by
  have hle := length_tuples_le ts
  generalize hbs : (ts.map tupleBytes).flatten = body at hle
  have hdrop : ∀ n, n ≤ 19 → (plainHeader ++ body ++ endMarker).drop n = plainHeader.drop n ++ (body ++ endMarker) := by
    intro n hn
    rw [append_assoc, drop_append_of_le_length]
    exact hn
  have htake : ∀ n m, n + m ≤ 19 → ((plainHeader ++ body ++ endMarker).drop n).take m = (plainHeader.drop n).take m := by
    intro n m hnm
    have hlen : plainHeader.length = 19 := rfl
    rw [hdrop n (by omega), take_append_of_le_length (by rw [length_drop, hlen]; omega)]
  have hlen : (plainHeader ++ body ++ endMarker).length = 21 + body.length := by
    simp only [length_append, endMarker, length_cons, length_nil]
    have : plainHeader.length = 19 := rfl
    omega
  have hsig : (plainHeader ++ body ++ endMarker).take 11 = copySignature := htake 0 11 (by omega)
  have hflags : ofBigEndian (((plainHeader ++ body ++ endMarker).drop 11).take 4) = 0 := by rw [htake 11 4 (by omega)]; rfl
  have hext : ofBigEndian (((plainHeader ++ body ++ endMarker).drop 15).take 4) = 0 := by rw [htake 15 4 (by omega)]; rfl
  have hrest : (plainHeader ++ body ++ endMarker).drop 19 = body ++ endMarker := hdrop 19 (by omega)
  rw [parseCopy, if_neg (by simp only [hlen, hsig, hflags, not_or]; refine ⟨by omega, by simp, by omega⟩)]
  simp only [hext, hrest, Nat.not_lt_zero, if_false, drop_zero]
  rw [← hbs]
  exact parseTuples_flatten h (by rw [hbs]; omega)

end Pgvs3
