import Pgvs3.Store.Sweep
/-!
# The rounds of budget eviction

`expireNamespace` (`store.go:1560-1600`), given a budget, calls `evictCacheOverBudget` with a limit,
again while it gets full batches. The batches are cut from one order, so that how they are cut does
not show.
-/

namespace Pgvs3

open List

/-- The rows with an expiry; the key is the primary key. -/
structure EvictTable where
  rows : List EvictRow
  nodup : (rows.map EvictRow.key).Nodup

def bytesOf (rows : List EvictRow) : Nat := (rows.map EvictRow.size).sum

def EvictTable.without (t : EvictTable) (keys : List Text) : EvictTable :=
  ⟨t.rows.filter (·.key ∉ keys), t.nodup.sublist (filter_sublist.map _)⟩

/-- The rows that are left when nobody else has locked any. -/
def evictRounds (maxBytes limit : Nat) : Nat → EvictTable → EvictTable
  | 0, t => t
  | rounds + 1, t =>
    let keys := evictCacheOverBudget t.rows maxBytes limit
    if keys.length < limit then t.without keys else evictRounds maxBytes limit rounds (t.without keys)

/-- The second half of `expireNamespace`: without a budget nothing is evicted
(`store.go:1560-1600`). -/
def evictNamespace (maxBytes : Int) (limit rounds : Nat) (t : EvictTable) : EvictTable :=
  if maxBytes ≤ 0 then t else evictRounds maxBytes.toNat limit rounds t

def EvictRow.rank (r : EvictRow) : ℕ ×ₗ ℕ ×ₗ Text := toLex (r.expiresAt, toLex (r.createdAt, r.key))

theorem evictBefore_iff {a b : EvictRow} : evictBefore a b ↔ a.rank ≤ b.rank := by
  simp [evictBefore, EvictRow.rank, Prod.Lex.le_iff]

instance evictBefore_total : Std.Total evictBefore := ⟨fun a b => by simpa only [evictBefore_iff] using le_total a.rank b.rank⟩

instance evictBefore_trans : IsTrans EvictRow evictBefore := ⟨fun a b c => by simpa only [evictBefore_iff] using le_trans⟩

theorem bytesOf_take_add_drop (n : Nat) (l : List EvictRow) : bytesOf (l.take n) + bytesOf (l.drop n) = bytesOf l := by
  rw [bytesOf, bytesOf, ← sum_append, ← map_append, take_append_drop, bytesOf]

/-- Once the rows before add up to the excess, none is taken any more. -/
theorem doomedRows_spec (excess prior : Nat) (l : List EvictRow) : ∃ n ≤ l.length, doomedRows excess prior l = l.take n ∧
    (∀ m < n, prior + bytesOf (l.take m) < excess) ∧ (n < l.length → excess ≤ prior + bytesOf (l.take n)) := by
  induction l generalizing prior with
  | nil => exact ⟨0, by simp [doomedRows]⟩
  | cons r l ih =>
    obtain ⟨n, hn, heq, hlt, hge⟩ := ih (prior + r.size)
    by_cases hp : prior < excess
    · refine ⟨n + 1, by simpa using hn, by simp [doomedRows, hp, heq], fun m hm => ?_, fun h => ?_⟩
      · cases m with
        | zero => simpa [bytesOf] using hp
        | succ m =>
          have := hlt m (by omega)
          simp only [bytesOf, take_succ_cons, map_cons, sum_cons] at this ⊢
          omega
      · have := hge (by simpa using h)
        simp only [bytesOf, take_succ_cons, map_cons, sum_cons] at this ⊢
        omega
    · -- the sum before the next row is no less
      have hn0 : n = 0 := by
        by_contra hne
        have := hlt 0 (by omega)
        omega
      exact ⟨0, by simp, by simp [doomedRows, hp, heq, hn0], nofun, fun _ => by omega⟩

variable {t : EvictTable}

theorem evictOrder_without (keys : List Text) : evictOrder (t.without keys).rows = (evictOrder t.rows).filter (·.key ∉ keys) := by
  have hperm : evictOrder (t.without keys).rows ~ (evictOrder t.rows).filter (·.key ∉ keys) :=
    (perm_insertionSort _ _).trans ((perm_insertionSort _ t.rows).symm.filter _)
  refine hperm.eq_of_pairwise (fun a b ha hb hab hba => ?_) (pairwise_insertionSort _ _) ((pairwise_insertionSort _ t.rows).filter _)
  -- rows in one place of the order have one key
  have hkey : a.key = b.key := by
    have := le_antisymm (evictBefore_iff.1 hab) (evictBefore_iff.1 hba)
    simp only [EvictRow.rank, toLex_inj, Prod.mk.injEq] at this
    exact this.2.2
  have ha' : a ∈ t.rows := mem_of_mem_filter ((mem_insertionSort _).1 ha)
  have hb' : b ∈ t.rows := (mem_insertionSort _).1 (mem_of_mem_filter hb)
  exact inj_on_of_nodup_map t.nodup ha' hb' hkey

theorem nodup_evictOrder (t : EvictTable) : ((evictOrder t.rows).map EvictRow.key).Nodup :=
  ((perm_insertionSort _ t.rows).map _).nodup_iff.2 t.nodup

/-- One call takes rows from the front as long as the rest is over the budget, up to the limit. -/
theorem evictCacheOverBudget_spec (t : EvictTable) (maxBytes limit : Nat) : ∃ n ≤ min limit (evictOrder t.rows).length,
    evictCacheOverBudget t.rows maxBytes limit = ((evictOrder t.rows).take n).map EvictRow.key ∧
    (∀ m < n, maxBytes < bytesOf ((evictOrder t.rows).drop m)) ∧ (n < limit → bytesOf ((evictOrder t.rows).drop n) ≤ maxBytes) := by
  have hbytes : (t.rows.map (·.size)).sum = bytesOf (evictOrder t.rows) := ((perm_insertionSort _ t.rows).map _).sum_eq.symm
  simp only [evictCacheOverBudget, hbytes]
  generalize evictOrder t.rows = l
  have hsplit := fun m => bytesOf_take_add_drop m l
  by_cases hle : bytesOf l ≤ maxBytes
  · exact ⟨0, by simp [hle]⟩
  · obtain ⟨n, hn, heq, hlt, hge⟩ := doomedRows_spec (bytesOf l - maxBytes) 0 (l.take limit)
    rw [length_take] at hn hge
    have htake : ∀ m ≤ n, (l.take limit).take m = l.take m := fun m hm => by rw [take_take, Nat.min_eq_left (by omega)]
    refine ⟨n, hn, by rw [if_neg hle, heq, htake n le_rfl], fun m hm => ?_, fun h => ?_⟩
    · have := hlt m hm
      rw [htake m hm.le] at this
      have := hsplit m
      omega
    · by_cases hall : n < l.length
      · have := hge (by omega)
        rw [htake n le_rfl] at this
        have := hsplit n
        omega
      · simp [drop_eq_nil_of_le (not_lt.1 hall), bytesOf]

theorem without_taken (t : EvictTable) (n : Nat) :
    evictOrder (t.without (((evictOrder t.rows).take n).map EvictRow.key)).rows = (evictOrder t.rows).drop n := by
  have hnodup := nodup_evictOrder t
  rw [evictOrder_without]
  generalize evictOrder t.rows = l at hnodup ⊢
  conv_lhs => rw [← take_append_drop n l, filter_append]
  rw [← take_append_drop n l, map_append, nodup_append] at hnodup
  rw [filter_eq_nil_iff.2 fun r hr => ?_, nil_append, filter_eq_self.2 fun r hr => ?_]
  · simp only [take_append_drop, decide_eq_true_eq]
    exact fun hk => hnodup.2.2 _ hk _ (mem_map_of_mem hr) rfl
  · simp only [take_append_drop, decide_eq_true_eq, not_not]
    exact mem_map_of_mem hr

theorem evictRounds_front (maxBytes limit rounds : Nat) (t : EvictTable) : ∃ n,
    evictOrder (evictRounds maxBytes limit rounds t).rows = (evictOrder t.rows).drop n ∧
    (∀ m < n, maxBytes < bytesOf ((evictOrder t.rows).drop m)) ∧
    (bytesOf ((evictOrder t.rows).drop n) ≤ maxBytes ∨ n = rounds * limit) := by
  induction rounds generalizing t with
  | zero => exact ⟨0, by simp [evictRounds]⟩
  | succ rounds ih =>
    obtain ⟨n, hn, hkeys, hover, hdone⟩ := evictCacheOverBudget_spec t maxBytes limit
    have hlen : (((evictOrder t.rows).take n).map EvictRow.key).length = n := by
      rw [length_map, length_take]
      omega
    simp only [evictRounds, hkeys, hlen]
    split
    · next h => exact ⟨n, without_taken t n, hover, .inl (hdone h)⟩
    · obtain ⟨k, heq, hover', hdone'⟩ := ih (t.without (((evictOrder t.rows).take n).map EvictRow.key))
      simp only [without_taken, drop_drop] at heq hover' hdone'
      have hfull : n = limit := by omega
      refine ⟨n + k, heq, fun m hm => ?_, hdone'.imp_right fun h => ?_⟩
      · by_cases hmn : m < n
        · exact hover m hmn
        · have := hover' (m - n) (by omega)
          rwa [Nat.add_sub_of_le (by omega)] at this
      · rw [h, hfull, Nat.succ_mul, Nat.add_comm]

/-- **Budget eviction.** However the rows are cut into batches, the rounds take rows from the front
of one order, each only while what is left is over the budget, and they end within the budget unless
every round has taken a full batch. -/
theorem evictNamespace_exact (maxBytes : Int) (limit rounds : Nat) (t : EvictTable) : ∃ n,
    evictOrder (evictNamespace maxBytes limit rounds t).rows = (evictOrder t.rows).drop n ∧
    (∀ m < n, 0 < maxBytes ∧ maxBytes < bytesOf ((evictOrder t.rows).drop m)) ∧
    (maxBytes ≤ 0 ∨ bytesOf ((evictOrder t.rows).drop n) ≤ maxBytes ∨ n = rounds * limit) := by
  unfold evictNamespace
  split
  · next h => exact ⟨0, rfl, fun m hm => absurd hm (Nat.not_lt_zero m), .inl h⟩
  · next h =>
    obtain ⟨n, heq, hover, hdone⟩ := evictRounds_front maxBytes.toNat limit rounds t
    refine ⟨n, heq, fun m hm => ?_, .inr (hdone.imp_left fun hle => ?_)⟩
    · have := hover m hm
      omega
    · omega

end Pgvs3
