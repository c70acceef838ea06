import Pgvs3.Cache.MSet
/-!
# When MSET is atomic and leaves what SETs leave

Key by key the state after some of the writes is that of `setAll` for a part of the list
(`value_setAll`). At once the rows and the garbage come out the same as from SETs (`garbage_setAll`,
`garbage_cacheMSet`).
-/

namespace Pgvs3.Cache

open Data (assign erase last lookup_assign lookup_erase last_cons isSome_last)
open List

variable {e : Encoder} {now : Nat} {st st' : Space} {kvs : List (Key × Bytes)} {k : Key}
    {f : FileId} {v : Bytes} {row : Row}

/-! ## One SET -/

theorem mem_files : f ∈ st.files k ↔ ∃ r, st.objects.lookup k = some r ∧ f ∈ r.body.files := by
  unfold Space.files
  cases st.objects.lookup k <;> simp

theorem refers_iff {p : Key → Bool} : st.refers p f = true ↔ ∃ k, p k = true ∧ f ∈ st.files k := by
  unfold Space.refers
  simp only [List.any_eq_true, Bool.and_eq_true, contains_iff_mem]
  constructor
  · rintro ⟨x, -, hp, hf⟩
    exact ⟨x.1, hp, hf⟩
  · rintro ⟨k, hp, hf⟩
    obtain ⟨r, hr, -⟩ := mem_files.1 hf
    have hk : k ∈ st.objects.map Prod.fst := Data.isSome_lookup.1 (by rw [hr]; rfl)
    obtain ⟨x, hx, rfl⟩ := mem_map.1 hk
    exact ⟨x, hx, hp, hf⟩

theorem or_and_not_and (p q r : Prop) : p ∨ q ∧ ¬ p ∧ r ↔ p ∨ q ∧ r := by
  by_cases hp : p <;> simp [hp]

theorem mem_queueGarbage {files : List FileId} : f ∈ (st.queueGarbage files).garbage ↔
    f ∈ st.garbage ∨ f ∈ files ∧ (¬ ∃ k, f ∈ st.files k) ∧ f ∉ st.uploadParts := by
  have hr : st.refers (fun _ => true) f = false ↔ ¬ ∃ k, f ∈ st.files k := by
    rw [← Bool.not_eq_true, refers_iff]
    simp
  rw [← hr]
  simp only [Space.queueGarbage, mem_append, mem_filter, mem_dedup, decide_eq_true_eq]
  exact or_and_not_and _ _ _

def setRow (e : Encoder) (now : Nat) (st : Space) (v : Bytes) : Row :=
  e.row now (some []) v (if v.length ≤ inlineMax then .inline (Codec.compressBlock e.z v)
    else .file st.nextFile v)

variable (kv : Key × Bytes)

theorem lookup_set : (set e now st kv).objects.lookup k =
    if k == kv.1 then some (setRow e now st kv.2) else st.objects.lookup k := by
  unfold set setRow
  split <;> exact lookup_assign _ _ _ k

theorem value_row (h : st.objects.lookup k = some (setRow e now st' v)) :
    st.value e now k = some v := by
  rw [Space.value, h, Option.bind_some, setRow]
  by_cases hv : v.length ≤ inlineMax
  · simp [Encoder.row, hv, Codec.decompressBlock_compressBlock, Except.toOption]
  · simp [Encoder.row, hv]

theorem value_set : (set e now st kv).value e now k =
    if k == kv.1 then some kv.2 else st.value e now k := by
  cases hk : k == kv.1 with
  | true => exact value_row (by rw [lookup_set, hk]; rfl)
  | false => simp [Space.value, lookup_set, hk]

theorem setAll_cons : setAll e now st (kv :: kvs) = setAll e now (set e now st kv) kvs := rfl

theorem value_setAll : (setAll e now st kvs).value e now k =
    (last kvs k).or (st.value e now k) := by
  induction kvs generalizing st with
  | nil => rfl
  | cons kv kvs ih =>
    rw [setAll_cons, ih, value_set, last_cons]
    cases k == kv.1 <;> simp

/-! ## SETs of small values -/

theorem set_small {kv : Key × Bytes} (h : kv.2.length ≤ inlineMax) :
    set e now st kv = publishValue st kv.1 (inlineRow e now (some []) kv.2) := if_pos h

theorem small_of_not_large (h : large kvs = false) : ∀ kv ∈ kvs, kv.2.length ≤ inlineMax := by
  intro kv hkv
  by_contra hlt
  have : large kvs = true := List.any_eq_true.2 ⟨kv, hkv, by simpa using hlt⟩
  rw [h] at this
  cases this

theorem lookup_publish (k' : Key) :
    (publishValue st k row).objects.lookup k' = if k' == k then some row
      else st.objects.lookup k' := lookup_assign _ _ _ k'

theorem files_publish (hrow : row.body.files = []) (k' : Key) :
    f ∈ (publishValue st k row).files k' ↔ k' ≠ k ∧ f ∈ st.files k' := by
  rw [mem_files, mem_files, lookup_publish]
  by_cases hk : k' = k
  · simp [hk, hrow]
  · simp [hk]

theorem garbage_publish (hrow : row.body.files = []) : f ∈ (publishValue st k row).garbage ↔
    f ∈ st.garbage ∨ f ∈ st.files k ∧ (¬ ∃ k', k' ≠ k ∧ f ∈ st.files k') ∧ f ∉ st.uploadParts := by
  have hex : (∃ k', f ∈ (publishValue st k row).files k') ↔ ∃ k', k' ≠ k ∧ f ∈ st.files k' :=
    exists_congr (files_publish hrow)
  rw [← hex]
  exact mem_queueGarbage

/-- A file of a listed key, unless another row or an upload has it. -/
def Freed (st : Space) (keys : List Key) (f : FileId) : Prop :=
  (∃ k ∈ keys, f ∈ st.files k) ∧ (¬ ∃ k, k ∉ keys ∧ f ∈ st.files k) ∧ f ∉ st.uploadParts

/-- What a key had is let go by the SET of it, or by that of a later key that has it too. -/
theorem freed_cons {keys : List Key} (hfiles : ∀ k', f ∈ st'.files k' ↔ k' ≠ k ∧ f ∈ st.files k')
    (hup : st'.uploadParts = st.uploadParts) :
    (f ∈ st.files k ∧ (¬ ∃ k', k' ≠ k ∧ f ∈ st.files k') ∧ f ∉ st.uploadParts) ∨ Freed st' keys f ↔
      Freed st (k :: keys) f := by
  unfold Freed
  rw [hup]
  simp only [hfiles, mem_cons, not_or]
  constructor
  · rintro (⟨hk, hno, hu⟩ | ⟨⟨k', hk', hne, hf⟩, hno, hu⟩)
    · exact ⟨⟨k, .inl rfl, hk⟩, fun ⟨k', ⟨hne, _⟩, hf⟩ => hno ⟨k', hne, hf⟩, hu⟩
    · exact ⟨⟨k', .inr hk', hf⟩, fun ⟨k'', ⟨hne', hmem⟩, hf'⟩ => hno ⟨k'', hmem, hne', hf'⟩, hu⟩
  · rintro ⟨⟨k', hk', hf⟩, hno, hu⟩
    by_cases hother : ∃ k'' ∈ keys, k'' ≠ k ∧ f ∈ st.files k''
    · exact .inr ⟨hother, fun ⟨k'', hmem, hne, hf'⟩ => hno ⟨k'', ⟨hne, hmem⟩, hf'⟩, hu⟩
    · refine .inl ⟨?_, ?_, hu⟩
      · by_cases hkk : k' = k
        · exact hkk ▸ hf
        · exact absurd ⟨k', hk'.resolve_left hkk, hkk, hf⟩ hother
      · rintro ⟨k'', hne, hf'⟩
        by_cases hmem : k'' ∈ keys
        · exact hother ⟨k'', hmem, hne, hf'⟩
        · exact hno ⟨k'', ⟨hne, hmem⟩, hf'⟩

theorem garbage_setAll (h : ∀ kv ∈ kvs, kv.2.length ≤ inlineMax) :
    f ∈ (setAll e now st kvs).garbage ↔ f ∈ st.garbage ∨ Freed st (kvs.map Prod.fst) f := by
  induction kvs generalizing st with
  | nil =>
    show f ∈ st.garbage ↔ _
    simp [Freed]
  | cons kv kvs ih =>
    rw [setAll_cons, ih fun x hx => h x (mem_cons_of_mem kv hx), set_small (h kv mem_cons_self),
      garbage_publish rfl, or_assoc, freed_cons (files_publish rfl) rfl]
    rfl

theorem lookup_setAll (h : ∀ kv ∈ kvs, kv.2.length ≤ inlineMax) :
    (setAll e now st kvs).objects.lookup k =
    ((last kvs k).map (inlineRow e now (some []))).or (st.objects.lookup k) := by
  induction kvs generalizing st with
  | nil => rfl
  | cons kv kvs ih =>
    rw [setAll_cons, ih fun x hx => h x (mem_cons_of_mem kv hx), set_small (h kv mem_cons_self),
      lookup_publish, last_cons]
    cases k == kv.1 <;> cases last kvs k <;> rfl

theorem set_partChecksums : (set e now st kv).partChecksums = erase st.partChecksums kv.1 := by
  unfold set
  split <;> rfl

theorem set_originMetadata : (set e now st kv).originMetadata = erase st.originMetadata kv.1 := by
  unfold set
  split <;> rfl

theorem partChecksums_setAll : (setAll e now st kvs).partChecksums =
    st.partChecksums.filter fun c => c.1 ∉ kvs.map Prod.fst := by
  induction kvs generalizing st with
  | nil => exact (filter_eq_self.2 (by simp)).symm
  | cons kv kvs ih =>
    rw [setAll_cons, ih, set_partChecksums, erase, List.filter_filter]
    refine filter_congr fun c _ => ?_
    by_cases hc : c.1 = kv.1
    · simp [hc]
    · have hb : (c.1 == kv.1) = false := beq_eq_false_iff_ne.2 hc
      simp [mem_cons, hc, bne, hb]

theorem originMetadata_setAll : (setAll e now st kvs).originMetadata.lookup k =
    if k ∈ kvs.map Prod.fst then none else st.originMetadata.lookup k := by
  induction kvs generalizing st with
  | nil => rfl
  | cons kv kvs ih =>
    rw [setAll_cons, ih, set_originMetadata, lookup_erase, map_cons]
    by_cases hk : k = kv.1
    · simp [hk]
    · simp only [mem_cons, hk, false_or, beq_eq_false_iff_ne.2 hk, Bool.false_eq_true, if_false]

/-! ## SETs that change nothing -/

/-- A new file is referred to, or is garbage from then on. -/
def Space.Knows (st : Space) (f : FileId) : Prop := f ∈ st.garbage ∨ ∃ k, f ∈ st.files k

theorem knows_publish (h : st.Knows f) (hup : f ∉ st.uploadParts) :
    (publishValue st k row).Knows f := by
  by_cases hex : ∃ k', f ∈ (publishValue st k row).files k'
  · exact .inr hex
  · refine .inl (mem_queueGarbage.2 (h.imp_right fun ⟨k', hk'⟩ => ⟨?_, hex, hup⟩))
    -- only the row of `k` has gone
    by_contra hk
    refine hex ⟨k', ?_⟩
    have hne : (k' == k) = false := beq_eq_false_iff_ne.2 fun he => hk (he ▸ hk')
    rw [mem_files, lookup_publish, hne]
    exact mem_files.1 hk'

theorem knows_set (h : st.Knows f) (hup : f ∉ st.uploadParts) : (set e now st kv).Knows f := by
  unfold set
  split
  · exact knows_publish h hup
  · exact knows_publish h hup

theorem set_uploadParts : (set e now st kv).uploadParts = st.uploadParts := by
  unfold set
  split <;> rfl

theorem knows_setAll (h : st.Knows f) (hup : f ∉ st.uploadParts) :
    (setAll e now st kvs).Knows f := by
  induction kvs generalizing st with
  | nil => exact h
  | cons kv kvs ih => exact ih (knows_set kv h hup) (by rwa [set_uploadParts])

theorem set_nextFile (e : Encoder) (now : Nat) (st : Space) (kv : Key × Bytes) :
    st.nextFile ≤ (set e now st kv).nextFile := by
  unfold set
  split
  · exact le_rfl
  · exact (PNat.lt_add_right _ _).le

/-- A value that does not fit into its row leaves a file. -/
theorem exists_knows_setAll (e : Encoder) (now : Nat) (hup : ∀ f ∈ st.uploadParts, f < st.nextFile)
    (hl : large kvs = true) :
    ∃ f, st.nextFile ≤ f ∧ (setAll e now st kvs).Knows f := by
  induction kvs generalizing st with
  | nil => cases hl
  | cons kv kvs ih =>
    by_cases hv : kv.2.length ≤ inlineMax
    · have hle := set_nextFile e now st kv
      have hup' : ∀ f ∈ (set e now st kv).uploadParts, f < (set e now st kv).nextFile := by
        rw [set_uploadParts]
        exact fun f hf => (hup f hf).trans_le hle
      obtain ⟨f, hf, hk⟩ := ih hup' (by simpa [large, Nat.not_lt.2 hv] using hl)
      exact ⟨f, hle.trans hf, hk⟩
    · refine ⟨st.nextFile, le_rfl, ?_⟩
      change Space.Knows (setAll e now (set e now st kv) kvs) _
      refine knows_setAll (.inr ⟨kv.1, ?_⟩) ?_
      · rw [mem_files, lookup_set]
        exact ⟨_, by rw [if_pos (beq_self_eq_true _)], by simp [setRow, hv, Encoder.row, RowBody.files]⟩
      · rw [set_uploadParts]
        exact fun hf => lt_irrefl _ (hup _ hf)

theorem files_of_same (hs : Same st' st) (hf : f ∈ st'.files k) : f ∈ st.files k := by
  obtain ⟨r, hr, hfr⟩ := mem_files.1 hf
  have hrow := hs.row k
  rw [hr] at hrow
  obtain ⟨r', hr', he⟩ := Option.map_eq_some_iff.1 hrow.symm
  have hbody : r'.read.body = r.read.body := by rw [he]
  exact mem_files.2 ⟨r', hr', (show r'.body = r.body from hbody) ▸ hfr⟩

theorem same_setAll_iff (hst : st.Drawn) :
    Same (setAll e now st kvs) st ↔ Rewrites e now st kvs := by
  constructor
  · intro hs
    have hsmall : ∀ kv ∈ kvs, kv.2.length ≤ inlineMax := by
      refine small_of_not_large (Bool.eq_false_iff.2 fun hl => ?_)
      obtain ⟨f, hle, hf | ⟨k, hf⟩⟩ := exists_knows_setAll e now hst.uploadParts hl
      · exact absurd (hst.garbage f ((hs.garbage f).1 hf)) hle.not_gt
      · exact absurd (hst.files k f (files_of_same hs hf)) hle.not_gt
    refine ⟨hsmall, fun k v hv => ?_⟩
    have hk : k ∈ kvs.map Prod.fst := isSome_last.1 (by rw [hv]; rfl)
    have hrow := hs.row k
    have hparts := hs.partChecksums k
    have hmeta := hs.originMetadata k
    rw [lookup_setAll hsmall, hv] at hrow
    rw [partChecksums_setAll, List.filter_filter] at hparts
    rw [originMetadata_setAll, if_pos hk] at hmeta
    refine ⟨hrow.symm, ?_, hmeta.symm⟩
    rw [← hparts, filter_eq_nil_iff]
    rintro c - hc
    simp only [Bool.and_eq_true, decide_eq_true_eq] at hc
    exact hc.2 (hc.1 ▸ hk)
  · rintro ⟨hsmall, hrows⟩
    have hlisted : ∀ k ∈ kvs.map Prod.fst, ∃ v,
      last kvs k = some v := fun k hk => Option.isSome_iff_exists.1 (isSome_last.2 hk)
    refine ⟨fun k => ?_, fun k => ?_, fun k => ?_, fun f => ?_⟩
    · rw [lookup_setAll hsmall]
      cases hv : last kvs k with
      | none => rfl
      | some v => exact (hrows k v hv).1.symm
    · rw [partChecksums_setAll, List.filter_filter]
      refine filter_congr fun c hc => ?_
      by_cases hk : c.1 ∈ kvs.map Prod.fst
      · obtain ⟨v, hv⟩ := hlisted c.1 hk
        have hnil := filter_eq_nil_iff.1 (hrows _ v hv).2.1 c hc
        simp at hnil
      · simp only [hk, not_false_eq_true, decide_true, Bool.and_true]
    · rw [originMetadata_setAll]
      split
      · next hk =>
        obtain ⟨v, hv⟩ := hlisted k hk
        exact (hrows k v hv).2.2.symm
      · rfl
    · rw [garbage_setAll hsmall, or_iff_left]
      rintro ⟨⟨k, hk, hf⟩, -⟩
      obtain ⟨v, hv⟩ := hlisted k hk
      obtain ⟨r, hr, hfr⟩ := mem_files.1 hf
      obtain ⟨r', hr', he⟩ := Option.map_eq_some_iff.1 (hrows k v hv).1
      cases hr.symm.trans hr'
      have hbody : r.read.body = (inlineRow e now (some []) v).body := by rw [he]
      rw [show r.body = .inline (Codec.compressBlock e.z v) from hbody] at hfr
      cases hfr

/-! ## All keys at once -/

theorem lookup_replace (l : List (Key × Bytes)) (kv : Key × Bytes) (k : Key) :
    (l.map fun x => if x.1 = kv.1 then kv else x).lookup k =
      if k == kv.1 then (l.lookup kv.1).map fun _ => kv.2 else l.lookup k := by
  induction l with
  | nil => simp
  | cons x l ih =>
    obtain ⟨a, v⟩ := x
    obtain ⟨b, w⟩ := kv
    rw [map_cons]
    by_cases hx : a = b
    · subst hx
      rw [if_pos rfl, lookup_cons, ih]
      by_cases hk : k = a
      · simp [hk]
      · simp [lookup_cons, beq_eq_false_iff_ne.2 hk]
    · have hb : (b == a) = false := beq_eq_false_iff_ne.2 (Ne.symm hx)
      rw [if_neg hx, lookup_cons, ih, lookup_cons, lookup_cons, hb]
      by_cases hk : k = b
      · subst hk
        simp [hb]
      · simp [hk]

theorem last_encodeCacheBatch : last (encodeCacheBatch kvs) k = last kvs k := by
  have hstep : ∀ (l batch : List (Key × Bytes)), last (l.foldl (fun batch kv =>
      if (batch.lookup kv.1).isSome then batch.map fun e => if e.1 = kv.1 then kv else e
        else batch ++ [kv]) batch) k =
      (last l k).or (last batch k) := by
    intro l
    induction l with
    | nil => exact fun batch => rfl
    | cons kv l ih =>
      intro batch
      rw [foldl_cons, ih, last_cons]
      split
      · next hsome =>
        obtain ⟨v, hv⟩ := Option.isSome_iff_exists.1 (isSome_last.2 (Data.isSome_lookup.1 hsome))
        rw [last, last, ← map_reverse, lookup_replace]
        rw [last] at hv
        cases k == kv.1 <;> simp [hv, last]
      · rw [last, last, reverse_append, reverse_singleton, singleton_append, lookup_cons]
        cases k == kv.1 <;> simp [last]
  rw [encodeCacheBatch, hstep]
  simp [last]

theorem keys_encodeCacheBatch : k ∈ (encodeCacheBatch kvs).map Prod.fst ↔ k ∈ kvs.map Prod.fst := by
  rw [← isSome_last, last_encodeCacheBatch, isSome_last]

theorem lookup_cacheMSet (batch : List (Key × Bytes)) :
    (cacheMSet e now st batch).objects.lookup k =
    ((last batch k).map (inlineRow e now none)).or (st.objects.lookup k) := by
  have h := Data.lookup_foldl_assign (fun kv : Key × Bytes => (kv.1, inlineRow e now none kv.2))
    batch st.objects k
  have hmap : last (batch.map fun kv => (kv.1, inlineRow e now none kv.2)) k =
      (last batch k).map (inlineRow e now none) := by
    induction batch with
    | nil => rfl
    | cons kv batch ih =>
      rw [map_cons, last_cons, last_cons, ih (Data.lookup_foldl_assign _ _ _ _)]
      cases k == kv.1 <;> cases last batch k <;> rfl
  rw [← hmap]
  exact h

theorem garbage_cacheMSet (batch : List (Key × Bytes)) :
    f ∈ (cacheMSet e now st batch).garbage ↔ f ∈ st.garbage ∨ Freed st (batch.map Prod.fst) f := by
  have hr : st.refers (fun k => k ∉ batch.map Prod.fst) f = false ↔ ¬ ∃ k, k ∉ batch.map Prod.fst ∧
      f ∈ st.files k := by
    rw [← Bool.not_eq_true, refers_iff]
    simp
  unfold Freed
  rw [← hr]
  simp only [cacheMSet, mem_append, mem_filter, mem_dedup, mem_flatMap, decide_eq_true_eq]
  exact or_and_not_and _ _ _

theorem value_inlineRow {originETag : Option Bytes}
    (h : st.objects.lookup k = some (inlineRow e now originETag v)) :
    st.value e now k = some v := by
  rw [Space.value, h]
  simp [inlineRow, Encoder.row, Codec.decompressBlock_compressBlock, Except.toOption]

theorem value_cacheMSet (h : last kvs k = some v) :
    (cacheMSet e now st (encodeCacheBatch kvs)).value e now k = some v :=
  value_inlineRow (by rw [lookup_cacheMSet, last_encodeCacheBatch, h]; rfl)

/-- The statement leaves what SETs leave, except for the rows in `origin_metadata`. -/
theorem same_cacheMSet_iff (h : ∀ kv ∈ kvs, kv.2.length ≤ inlineMax) :
    Same (cacheMSet e now st (encodeCacheBatch kvs)) (setAll e now st kvs) ↔
      ∀ kv ∈ kvs, st.originMetadata.lookup kv.1 = none := by
  have hkeys : (fun c : Key × Bytes => decide (c.1 ∉ (encodeCacheBatch kvs).map Prod.fst)) =
      fun c => decide (c.1 ∉ kvs.map Prod.fst) := by
    funext c
    simp [keys_encodeCacheBatch]
  constructor
  · intro hs kv hkv
    have hmeta := hs.originMetadata kv.1
    rw [originMetadata_setAll, if_pos (mem_map_of_mem hkv)] at hmeta
    exact hmeta
  · intro hnone
    refine ⟨fun k => ?_, fun k => ?_, fun k => ?_, fun f => ?_⟩
    · rw [lookup_cacheMSet, lookup_setAll h, last_encodeCacheBatch]
      cases last kvs k <;> rfl
    · rw [partChecksums_setAll]
      show (st.partChecksums.filter fun c =>
        decide (c.1 ∉ (encodeCacheBatch kvs).map Prod.fst)).filter _ = _
      rw [hkeys]
    · rw [originMetadata_setAll]
      split
      · next hk =>
        obtain ⟨kv, hkv, rfl⟩ := mem_map.1 hk
        exact hnone kv hkv
      · rfl
    · rw [garbage_cacheMSet, garbage_setAll h]
      simp only [Freed, keys_encodeCacheBatch]

/-! ## MSET -/

theorem runTxs_eq (txs : List (Space → Space)) (fail : Option (Nat × Bool)) : runTxs txs fail st =
    match committed txs.length fail with
    | none => (true, txs.foldl (fun s f => f s) st)
    | some j => (false, (txs.take j).foldl (fun s f => f s) st) := by
  unfold runTxs committed
  split
  · rfl
  · split <;> rfl

theorem foldl_sets (l : List (Key × Bytes)) :
    (l.map fun kv s => set e now s kv).foldl (fun s f => f s) st = setAll e now st l := by
  rw [foldl_map]
  rfl

theorem same_refl (st : Space) : Same st st :=
  ⟨fun _ => rfl, fun _ => rfl, fun _ => rfl, fun _ => Iff.rfl⟩

variable {fail : Option (Nat × Bool)}

theorem atomic_large_iff (hst : st.Drawn) (hne : kvs ≠ []) (hl : large kvs = true) :
    Atomic e now kvs fail st ↔ Harmless e now kvs fail st := by
  have hm : mset e now kvs fail st =
      match committed kvs.length fail with
      | none => (true, setAll e now st kvs)
      | some j => (false, setAll e now st (kvs.take j)) := by
    rw [mset, if_neg hne, if_pos hl, runTxs_eq, length_map, foldl_sets]
    cases committed kvs.length fail with
    | none => rfl
    | some j =>
      dsimp only
      rw [← map_take, foldl_sets]
  rw [Harmless, if_pos hl]
  cases hc : committed kvs.length fail with
  | none =>
    rw [hc] at hm
    refine iff_of_true ⟨.inl fun k v hv => ?_, fun _ => ?_⟩ nofun
    · rw [hm, value_setAll, hv]
      rfl
    · rw [hm]
      exact same_refl _
  | some j =>
    rw [hc] at hm
    constructor
    · rintro ⟨hwhole, -⟩ j' hj'
      cases hj'
      rw [hm] at hwhole
      rcases hwhole with hall | ⟨-, hsame⟩
      · refine .inr fun k v hv => ?_
        rw [← value_setAll]
        exact hall k v hv
      · exact .inl ((same_setAll_iff hst).1 hsame)
    · intro h
      refine ⟨?_, fun hok => by rw [hm] at hok; cases hok⟩
      rw [hm]
      rcases h j rfl with hrewrites | hall
      · exact .inr ⟨rfl, (same_setAll_iff hst).2 hrewrites⟩
      · refine .inl fun k v hv => ?_
        rw [value_setAll]
        exact hall k v hv

theorem atomic_small_iff (hne : kvs ≠ []) (hl : large kvs = false) :
    Atomic e now kvs fail st ↔ Harmless e now kvs fail st := by
  have hsmall := small_of_not_large hl
  have hm : mset e now kvs fail st =
      match committed 1 fail with
      | none => (true, cacheMSet e now st (encodeCacheBatch kvs))
      | some j => (false, if j = 0 then st else cacheMSet e now st (encodeCacheBatch kvs)) := by
    rw [mset, if_neg hne, if_neg (by simp [hl]), runTxs_eq]
    cases committed 1 fail with
    | none => rfl
    | some j => cases j <;> simp
  rw [Harmless, if_neg (by simp [hl])]
  cases hc : committed 1 fail with
  | none =>
    rw [hc] at hm
    rw [or_iff_right hne, or_iff_right (by simp)]
    constructor
    · intro h
      have hs := h.same (by rw [hm])
      rw [hm] at hs
      exact (same_cacheMSet_iff hsmall).1 hs
    · intro hnone
      refine ⟨.inl fun k v hv => ?_, fun _ => ?_⟩
      · rw [hm]
        exact value_cacheMSet hv
      · rw [hm]
        exact (same_cacheMSet_iff hsmall).2 hnone
  | some j =>
    rw [hc] at hm
    refine iff_of_true ⟨?_, fun hok => by rw [hm] at hok; cases hok⟩ (.inr (.inl (by simp)))
    rw [hm]
    by_cases hj : j = 0
    · refine .inr ⟨rfl, ?_⟩
      simp only [hj, if_true]
      exact same_refl st
    · refine .inl fun k v hv => ?_
      simp only [hj, if_false]
      exact value_cacheMSet hv

def emptySpace : Space := ⟨[], [], [], [], [], 1⟩

theorem emptySpace_drawn : emptySpace.Drawn := ⟨nofun, nofun, nofun⟩

def plainEncoder : Encoder := ⟨id, id, .plain⟩

end Pgvs3.Cache
