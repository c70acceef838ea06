import Pgvs3.Origin.Keys
/-!
# Range chunks of origin objects

Cache keys of objects that begin as a chunk key does are nameable: `rangeChunkKey_collides`.
-/

namespace Pgvs3.Origin

open List Data

/-! ## Keys -/

/-- `.__range__.`. -/
def rangeMark : Text := ['.', '_', '_', 'r', 'a', 'n', 'g', 'e', '_', '_', '.']

/-- All of a chunk key but the version. -/
def chunkHead (ck : Text) (off : Nat) : Text := ck ++ (rangeMark ++ hexDigits 16 off ++ ['.'])

/-- `objcache/cache.go:632-634`. -/
def rangeChunkKey (ck : Text) (off : Nat) (version : Text) : Text := chunkHead ck off ++ version

/-- No two chunks of objects under these keys have one key, and no object has the key of a chunk. -/
def KeysApart (ck ck' : Text) : Prop :=
  (∀ off off' v v', off < 2 ^ 63 → off' < 2 ^ 63 → rangeChunkKey ck off v = rangeChunkKey ck' off' v' → ck = ck' ∧ off = off' ∧ v = v') ∧
  ∀ off v, off < 2 ^ 63 → rangeChunkKey ck off v ≠ ck' ∧ rangeChunkKey ck' off v ≠ ck

@[simp] theorem length_rangeMark : rangeMark.length = 11 := rfl

/-- Inside the mark and the digits, no other mark begins. -/
theorem no_mark_inside (off : Nat) (s : Text) {i : Nat} (hi : 0 < i) (hlt : i < 27) :
    ¬ ((rangeMark ++ hexDigits 16 off ++ s)[i]? = some '.' ∧ (rangeMark ++ hexDigits 16 off ++ s)[i + 1]? = some '_') := by
  have hdigits : ∀ d < 16, Nat.digitChar d ≠ '.' ∧ Nat.digitChar d ≠ '_' := by decide
  have hmark : ∀ i < 11, 0 < i → rangeMark[i]? = some '.' → i = 10 := by decide
  have hhex : ∀ j, 11 ≤ j → j < 27 → ∀ c, (rangeMark ++ hexDigits 16 off ++ s)[j]? = some c → c ≠ '.' ∧ c ≠ '_' := by
    intro j hj hlt c hc
    rw [append_assoc, getElem?_append_right hj, getElem?_append_left (by simp; omega)] at hc
    obtain ⟨d, hd, rfl⟩ := mem_hexDigits (mem_of_getElem? hc)
    exact hdigits d hd
  rintro ⟨hdot, hline⟩
  by_cases h : 11 ≤ i
  · exact (hhex i h hlt _ hdot).1 rfl
  · rw [append_assoc, getElem?_append_left (by simp; omega)] at hdot
    obtain rfl := hmark i (by omega) hi hdot
    exact (hhex 11 le_rfl (by decide) _ hline).2 rfl

/-- Of two equal chunk keys, the one with the longer object key has all of the other but the version
in it. -/
theorem chunkHead_isPrefix {ck ck' v v' : Text} {off off' : Nat} (ho : off < 2 ^ 63) (ho' : off' < 2 ^ 63)
    (hle : ck.length ≤ ck'.length) (h : rangeChunkKey ck off v = rangeChunkKey ck' off' v') :
    (ck = ck' ∧ off = off' ∧ v = v') ∨ chunkHead ck off <+: ck' ++ ['.'] := by
  simp only [rangeChunkKey, chunkHead, append_assoc] at h
  obtain ⟨u, rfl⟩ := prefix_of_prefix_length_le (prefix_append _ _) (h.symm ▸ prefix_append _ _) hle
  rw [append_assoc, append_cancel_left_eq] at h
  by_cases hu : u = []
  · subst hu
    obtain ⟨hoff, hv⟩ := append_inj (append_cancel_left h) (by simp)
    exact .inl ⟨by simp, hexDigits_injective (by omega) (by omega) hoff, (List.cons.inj hv).2⟩
  · right
    have hpre : rangeMark ++ (hexDigits 16 off ++ ['.']) <+: rangeMark ++ (hexDigits 16 off ++ (['.'] ++ v)) := ⟨v, by simp⟩
    have hpre' : u ++ ['.'] <+: rangeMark ++ (hexDigits 16 off ++ (['.'] ++ v)) := by
      rw [h, prefix_append_right_inj]
      exact ⟨rangeMark.tail ++ (hexDigits 16 off' ++ (['.'] ++ v')), rfl⟩
    have hlen : 27 ≤ u.length := by
      by_contra hlt
      refine no_mark_inside off (['.'] ++ v) (length_pos_iff.2 hu) (Nat.not_le.1 hlt) ?_
      rw [append_assoc, h, getElem?_append_right le_rfl, getElem?_append_right (Nat.le_add_right _ 1), Nat.sub_self,
        Nat.add_sub_cancel_left]
      exact ⟨rfl, rfl⟩
    rw [chunkHead, append_assoc, append_assoc, prefix_append_right_inj]
    refine prefix_of_prefix_length_le hpre hpre' ?_
    simp only [length_append, length_rangeMark, length_hexDigits, length_singleton]
    omega

/-- Such a key has chunks under keys of the other's chunks. -/
theorem collides_of_isPrefix {ck ck' : Text} {off : Nat} (h : chunkHead ck off <+: ck' ++ ['.']) :
    ck ≠ ck' ∧ ∃ v, rangeChunkKey ck off v = rangeChunkKey ck' 0 [] := by
  refine ⟨?_, ?_⟩
  · rintro rfl
    have hlen := h.length_le
    simp only [chunkHead, length_append, length_rangeMark, length_hexDigits, length_singleton] at hlen
    omega
  · obtain ⟨w, hw⟩ := h
    refine ⟨w ++ (rangeMark.tail ++ hexDigits 16 0 ++ ['.']), ?_⟩
    rw [rangeChunkKey, ← append_assoc, hw, append_assoc]
    simp [rangeChunkKey, chunkHead, rangeMark]

theorem keysApart_iff (p q : Pair) : KeysApart p.cacheKey q.cacheKey ↔
    ∀ off < 2 ^ 63, ¬ chunkHead p.cacheKey off <+: q.cacheKey ++ ['.'] ∧ ¬ chunkHead q.cacheKey off <+: p.cacheKey ++ ['.'] := by
  constructor
  · rintro ⟨hinj, -⟩ off ho
    refine ⟨fun h => ?_, fun h => ?_⟩
    · obtain ⟨hne, v, hv⟩ := collides_of_isPrefix h
      exact hne (hinj off 0 v [] ho (by decide) hv).1
    · obtain ⟨hne, v, hv⟩ := collides_of_isPrefix h
      exact hne (hinj 0 off [] v (by decide) ho hv.symm).1.symm
  · intro h
    refine ⟨fun off off' v v' ho ho' he => ?_, fun off v ho => ⟨fun he => (h off ho).1 ?_, fun he => (h off ho).2 ?_⟩⟩
    · rcases Nat.le_total p.cacheKey.length q.cacheKey.length with hle | hle
      · exact (chunkHead_isPrefix ho ho' hle he).resolve_right (h off ho).1
      · obtain ⟨hk, hoff, hv⟩ := (chunkHead_isPrefix ho' ho hle he.symm).resolve_right (h off' ho').2
        exact ⟨hk.symm, hoff.symm, hv.symm⟩
    all_goals exact ((prefix_append _ v).trans (he ▸ prefix_rfl)).trans (prefix_append _ _)

/-- A version and a key with the mark in them, and the key of a chunk as the key of an object. -/
theorem rangeChunkKey_collides : (¬ ∀ p q : Pair, p.Valid → q.Valid → ∀ off off' v v', off < 2 ^ 63 → off' < 2 ^ 63 →
      rangeChunkKey p.cacheKey off v = rangeChunkKey q.cacheKey off' v' → p.cacheKey = q.cacheKey ∧ off = off' ∧ v = v') ∧
    ¬ ∀ p q : Pair, p.Valid → q.Valid → ∀ off v, off < 2 ^ 63 → rangeChunkKey p.cacheKey off v ≠ q.cacheKey := by
  have hkey : ∀ s : Text, s ≠ [] → (Pair.mk ['b'] s).Valid := fun s hs => ⟨nofun, by simp, hs⟩
  refine ⟨fun h => ?_, fun h => ?_⟩
  · have := h ⟨['b'], ['k']⟩ ⟨['b'], rangeChunkKey ['k'] 0 ['v']⟩ (hkey _ (by decide)) (hkey _ (by decide)) 0 0
      (rangeChunkKey ['v'] 0 ['w']) ['w'] (by decide) (by decide) (by decide)
    exact absurd this.1 (by decide)
  · exact h ⟨['b'], ['k']⟩ ⟨['b'], rangeChunkKey ['k'] 0 ['v']⟩ (hkey _ (by decide)) (hkey _ (by decide)) 0 ['v'] (by decide) (by decide)

end Pgvs3.Origin
