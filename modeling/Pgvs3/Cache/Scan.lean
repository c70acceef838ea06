import Pgvs3.Data.Glob
import Pgvs3.Data.Utf8
import Pgvs3.Listing.Page
/-!
# SCAN

A page ends early at a match, so that the pages are the matching keys `count` at a time
(`scanCache_eq`). If one of them ends at the key `0`, the client takes the cursor for the end
(`scan_stops_at_zero`). The keys are asked for up to the literal prefix followed by U+10FFFF, which
leaves out those that go on with this character.
-/

namespace Pgvs3.Scan

open Listing (Table Row Listed maxRune)
open List Option

/-! ## The command -/

def isSpecial (c : Char) : Bool := c == '*' || c == '?' || c == '[' || c == '\\'

/-- `resp.go:949-957`. -/
def literalPrefix (pat : Text) : Text := pat.takeWhile fun c => !isSpecial c

/-- `resp.go:959`. -/
def prefixUpper (pre : Text) : Text := pre ++ [maxRune]

/-- `*` matches everything; any other pattern goes to `path.Match`. -/
def matchesKey (pat key : Text) : Bool := pat == ['*'] || Data.Glob.pathMatch (Data.encode pat) (Data.encode key)

/-- `none` is an error: PostgreSQL takes no text with a NUL. -/
def list (t : Table) (now : Nat) (pre preEnd after : Text) (limit : Nat) : Option (List Listed) :=
  if '\x00' ∈ pre ∨ '\x00' ∈ after then none else some (t.list now pre preEnd after limit)

/-- The loop over the rows of one query: whether the page is full, where it stands, and its keys. -/
def scanRows (pat : Text) (count : Nat) : List Listed → Text → List Text → Bool × Text × List Text
  | [], after, keys => (false, after, keys)
  | row :: rows, _, keys =>
    let keys := if matchesKey pat row.key then keys ++ [row.key] else keys
    if count ≤ keys.length then (true, row.key, keys) else scanRows pat count rows row.key keys

def zero : Text := ['0']

def scanLoop (t : Table) (now : Nat) (pat : Text) (count page : Nat) : Nat → Text → List Text → Option (Text × List Text)
  | 0, _, _ => none
  | fuel + 1, after, keys =>
    if count ≤ keys.length then some (after, keys)
    else
      match list t now (literalPrefix pat) (prefixUpper (literalPrefix pat)) after page with
      | none => none
      | some [] => some (zero, keys)
      | some rows =>
        let (full, after, keys) := scanRows pat count rows after keys
        if full then some (after, keys)
        else if rows.length < page then some (zero, keys)
        else scanLoop t now pat count page fuel after keys

def pageSize (count : Nat) : Nat := if count < 1024 then max (count * 4) 64 else 1024

/-- `resp.go:961-995`. -/
def scanCache (t : Table) (now : Nat) (pat after : Text) (count : Nat) : Option (Text × List Text) :=
  scanLoop t now pat count (pageSize count) (t.rows.length + 1) after []

structure Options where
  count : Nat
  pat : Text
  count_pos : 0 < count

def Options.default : Options := ⟨10, ['*'], by decide⟩

/-- `strings.EqualFold(s, "string")`. -/
def isString (s : Text) : Bool := (s.map fun c => if c = 'ſ' then 's' else c.toLower) == "string".toList

/-- The options in pairs; `none` is a type other than `string`, and a count that is no positive
number is ignored. -/
def scanOptions : List Text → Options → Option Options
  | name :: value :: rest, o =>
    let upper := name.map Char.toUpper
    if upper = "MATCH".toList then scanOptions rest { o with pat := value }
    else if upper = "COUNT".toList then
      match Data.parseInt value with
      | some n => if h : 0 < n then scanOptions rest ⟨n.toNat, o.pat, Int.lt_toNat.2 h⟩ else scanOptions rest o
      | none => scanOptions rest o
    else if upper = "TYPE".toList ∧ isString value = false then none
    else scanOptions rest o
  | _, o => some o

/-- `resp.go:859-895`. -/
def cmdScan (t : Table) (now : Nat) (cursor : Text) (opts : List Text) : Option (Text × List Text) :=
  match scanOptions opts .default with
  | none => some (zero, [])
  | some o => scanCache t now o.pat (if cursor = zero then [] else cursor) o.count

/-- A client follows the cursor until it is `0` again. -/
def follow (t : Table) (now : Nat) (opts : List Text) : Nat → Text → Option (List (List Text))
  | 0, _ => none
  | fuel + 1, cursor =>
    match cmdScan t now cursor opts with
    | none => none
    | some (next, keys) => if next = zero then some [keys] else (follow t now opts fuel next).map (keys :: ·)

/-! ## Complete scans -/

def wanted (t : Table) (now : Nat) (pat : Text) : List Text :=
  (t.rows.filter fun r => r.live now && matchesKey pat r.key).map (·.key)

/-- The scan ends, and has returned every live key that matches exactly once and no other. -/
def Complete (t : Table) (now : Nat) (opts : List Text) (pat : Text) : Prop :=
  ∃ fuel pages, follow t now opts fuel zero = some pages ∧ pages.flatten.Nodup ∧ ∀ k, k ∈ pages.flatten ↔ k ∈ wanted t now pat

/-- The texts reach PostgreSQL, no matching key goes on with U+10FFFF behind the literal prefix, and
no page but the last ends at the key `0`. -/
structure Safe (t : Table) (now : Nat) (pat : Text) (count : Nat) : Prop where
  nul : '\x00' ∉ literalPrefix pat
  upper : ∀ k ∈ wanted t now pat, ¬ prefixUpper (literalPrefix pat) <+: k
  cursor : zero ∈ wanted t now pat → count ∣ (wanted t now pat).countP (· ≤ zero) → ∀ k ∈ wanted t now pat, k ≤ zero

/-! ## The literal prefix -/

theorem isSpecial_of_byte {b : UInt8} (hb : Data.Glob.special b = true) : b.toNat < 128 ∧ isSpecial (Char.ofNat b.toNat) = true := by
  simp only [Data.Glob.special, Bool.or_eq_true] at hb
  rcases hb with ((hb | hb) | hb) | hb
  all_goals
    rw [of_decide_eq_true hb]
    exact ⟨by decide, by decide⟩

theorem literal_bytes (pat : Text) : ∀ b ∈ Data.encode (literalPrefix pat), Data.Glob.special b = false := by
  intro b hb
  cases hspecial : Data.Glob.special b with
  | false => rfl
  | true =>
    obtain ⟨hascii, hchar⟩ := isSpecial_of_byte hspecial
    obtain ⟨c, hc, hval⟩ := Data.mem_of_ascii_mem_encode hascii hb
    have hplain := List.all_eq_true.1 all_takeWhile c hc
    rw [← hval, Char.ofNat_toNat] at hchar
    rw [hchar] at hplain
    cases hplain

variable {pat k c : Text} {done keys ks : List Text} {fuel now : Nat} {t : Table}

theorem literalPrefix_isPrefix {key : Text} (h : matchesKey pat key = true) : literalPrefix pat <+: key := by
  rcases Bool.or_eq_true_iff.1 h with hstar | hglob
  · rw [beq_iff_eq.1 hstar]
    exact List.nil_prefix
  · have hsplit : literalPrefix pat ++ pat.dropWhile (fun c => !isSpecial c) = pat := takeWhile_append_dropWhile
    rw [← hsplit, Data.encode_append] at hglob
    exact Data.isPrefix_of_encode (Data.Glob.literal_isPrefix (literal_bytes pat) hglob)

/-- What the queries leave out, among the keys with the prefix. -/
theorem lt_prefixUpper_iff {pre : Text} (h : pre <+: k) : k < prefixUpper pre ↔ ¬ prefixUpper pre <+: k :=
  Data.lt_concat_top_iff Listing.le_maxRune h

/-! ## The rows behind a key -/

variable {pre up a : Text} {rest : List Text}

def behind (t : Table) (now : Nat) (pre up a : Text) : List Text :=
  (t.rows.filter fun r => decide (pre ≤ r.key ∧ r.key < up ∧ a < r.key) && r.live now).map (·.key)

theorem keys_list (limit : Nat) : (t.list now pre up a limit).map (·.key) = (behind t now pre up a).take limit := by
  rw [Table.list, map_take, List.map_map, behind]
  rfl

theorem behind_ordered : (behind t now pre up a).Pairwise (· < ·) := pairwise_map.2 (t.ordered.filter _)

theorem length_behind_le : (behind t now pre up a).length ≤ t.rows.length := by
  rw [behind, length_map]
  exact length_filter_le _ _

theorem lt_of_mem_behind (h : k ∈ behind t now pre up a) : a < k := by
  obtain ⟨r, hr, rfl⟩ := mem_map.1 h
  have := (mem_filter.1 hr).2
  simp only [Bool.and_eq_true, decide_eq_true_eq] at this
  exact this.1.2.2

theorem behind_eq_filter (hc : a < c) : behind t now pre up c = (behind t now pre up a).filter fun k => decide (c < k) := by
  rw [behind, behind, List.filter_map, List.filter_filter]
  congr 1
  refine filter_congr fun r _ => ?_
  by_cases hr : c < r.key
  · simp [hr, lt_trans hc hr]
  · simp [hr]

theorem filter_lt_of_split (ho : (done ++ c :: rest).Pairwise (· < ·)) : ((done ++ c :: rest).filter fun k => decide (c < k)) = rest := by
  obtain ⟨-, hrest, hlt⟩ := pairwise_append.1 ho
  rw [filter_append, filter_eq_nil_iff.2, nil_append, filter_cons_of_neg, filter_eq_self.2]
  · exact fun k hk => decide_eq_true ((pairwise_cons.1 hrest).1 k hk)
  · simp
  · intro k hk
    simpa using (hlt k hk c mem_cons_self).le

theorem behind_of_split (h : behind t now pre up a = done ++ c :: rest) : behind t now pre up c = rest := by
  have ho : (done ++ c :: rest).Pairwise (· < ·) := h ▸ behind_ordered
  rw [behind_eq_filter (lt_of_mem_behind (h ▸ mem_append_right _ mem_cons_self)), h]
  exact filter_lt_of_split ho

/-! ## One page -/

/-- The reply for the matching keys `ks` that are left. -/
def answer (count : Nat) (ks : List Text) : Text × List Text :=
  if count ≤ ks.length then ((ks.take count).getLast?.getD [], ks.take count) else (zero, ks)

theorem scanRows_spec {count : Nat} (rows : List Listed) {after : Text} (hlt : keys.length < count) : scanRows pat count rows after keys =
      let ks := keys ++ (rows.map (·.key)).filter (matchesKey pat)
      if count ≤ ks.length then (true, (ks.take count).getLast?.getD [], ks.take count)
      else (false, (rows.map (·.key)).getLast?.getD after, ks) := by
  induction rows generalizing after keys with
  | nil => simp [scanRows, hlt]
  | cons row rows ih =>
    have hlast : ((row :: rows).map (·.key)).getLast?.getD after = (rows.map (·.key)).getLast?.getD row.key := by
      rw [map_cons, getLast?_cons, getD_some]
    rw [scanRows, hlast]
    cases hm : matchesKey pat row.key with
    | false =>
      simp only [Bool.false_eq_true, if_false, map_cons, filter_cons, hm]
      rw [if_neg (Nat.not_le.2 hlt)]
      exact ih hlt
    | true =>
      simp only [if_true, map_cons, filter_cons, hm]
      split
      · next hfull =>
        -- the page is full with this key
        rw [length_append, length_singleton] at hfull
        have hcount : count = keys.length + 1 := by omega
        have htake : (keys ++ row.key :: (rows.map (·.key)).filter (matchesKey pat)).take count = keys ++ [row.key] := by
          rw [append_cons, take_left']
          simp [hcount]
        rw [htake, if_pos (by simp; omega)]
        simp
      · next hmore =>
        rw [ih (Nat.not_le.1 hmore)]
        simp

variable {count : Nat}

/-- The live keys behind `a` that the queries return. -/
def rowsLeft (t : Table) (now : Nat) (pat a : Text) : List Text := behind t now (literalPrefix pat) (prefixUpper (literalPrefix pat)) a

def left (t : Table) (now : Nat) (pat a : Text) : List Text := (rowsLeft t now pat a).filter (matchesKey pat)

theorem answer_append {ks' : List Text} (h : count ≤ ks.length) : answer count (ks ++ ks') = answer count ks := by
  have hlen : count ≤ (ks ++ ks').length := by
    rw [length_append]
    omega
  rw [answer, answer, if_pos h, if_pos hlen, take_append_of_le_length h]

def Plain (t : Table) : Prop := ∀ r ∈ t.rows, '\x00' ∉ r.key

theorem mem_rows_of_behind (h : k ∈ behind t now pre up a) : ∃ r ∈ t.rows, r.key = k := by
  obtain ⟨r, hr, rfl⟩ := mem_map.1 h
  exact ⟨r, (mem_filter.1 hr).1, rfl⟩

theorem scanLoop_eq {page : Nat} (hpage : 0 < page) (ht : Plain t) (hnul : '\x00' ∉ literalPrefix pat)
    (ha : '\x00' ∉ a) (hlt : keys.length < count) (hfuel : (rowsLeft t now pat a).length < fuel) :
    scanLoop t now pat count page fuel a keys = some (answer count (keys ++ left t now pat a)) := by
  induction fuel generalizing a keys with
  | zero => omega
  | succ fuel ih =>
    have hlist : list t now (literalPrefix pat) (prefixUpper (literalPrefix pat)) a page =
        some (t.list now (literalPrefix pat) (prefixUpper (literalPrefix pat)) a page) := by
      rw [list, if_neg]
      rintro (h | h)
      · exact hnul h
      · exact ha h
    have hkeys : (t.list now (literalPrefix pat) (prefixUpper (literalPrefix pat)) a page).map
        (·.key) = (rowsLeft t now pat a).take page :=
      keys_list page
    rw [scanLoop, if_neg (Nat.not_le.2 hlt), hlist]
    have hsplit : left t now pat a = ((rowsLeft t now pat a).take page).filter (matchesKey pat) ++
        ((rowsLeft t now pat a).drop page).filter (matchesKey pat) := by
      rw [← filter_append, take_append_drop, left]
    cases hrows : t.list now (literalPrefix pat) (prefixUpper (literalPrefix pat)) a page with
    | nil =>
      rw [hrows, map_nil] at hkeys
      have hnil : rowsLeft t now pat a = [] := (take_eq_nil_iff.1 hkeys.symm).resolve_left hpage.ne'
      rw [left, hnil, filter_nil, append_nil, answer, if_neg (Nat.not_le.2 hlt)]
    | cons row rows =>
      rw [hrows] at hkeys
      have hlen : (row :: rows).length = min page (rowsLeft t now pat a).length := by
        rw [← length_take, ← hkeys, length_map]
      simp only [scanRows_spec (row :: rows) hlt, hkeys]
      by_cases hfull : count ≤ (keys ++ ((rowsLeft t now pat a).take page).filter (matchesKey pat)).length
      · simp only [if_pos hfull, if_true]
        rw [hsplit, ← append_assoc, answer_append hfull, answer, if_pos hfull]
      · simp only [if_neg hfull, Bool.false_eq_true, if_false]
        split
        · next hshort =>
          -- these were the last rows
          have hall : (rowsLeft t now pat a).take page = rowsLeft t now pat a := take_of_length_le (by omega)
          rw [hall] at hfull ⊢
          rw [answer, left, if_neg hfull]
        · next hpages =>
          have hpos : 0 < (rowsLeft t now pat a).length := by
            omega
          obtain ⟨done, c, hdone⟩ : ∃ done c, (rowsLeft t now pat a).take page = done ++ [c] := by
            rcases eq_nil_or_concat ((rowsLeft t now pat a).take page) with hnil | ⟨done, c, hc⟩
            · rw [hnil] at hkeys
              cases hkeys
            · exact ⟨done, c, by rw [hc, concat_eq_append]⟩
          have hc : rowsLeft t now pat a = done ++ c :: (rowsLeft t now pat a).drop page := by
            rw [append_cons, ← hdone, take_append_drop]
          have hnext : rowsLeft t now pat c = (rowsLeft t now pat a).drop page := behind_of_split hc
          have hmem : c ∈ rowsLeft t now pat a := by
            rw [hc]
            exact mem_append_right _ mem_cons_self
          obtain ⟨r, hr, rfl⟩ := mem_rows_of_behind hmem
          have hlast : ((rowsLeft t now pat a).take page).getLast?.getD a = r.key := by rw [hdone]; simp
          rw [hlast, ih (ht r hr) (Nat.not_le.1 hfull) ?_, hsplit, append_assoc, left, hnext]
          rw [hnext, length_drop]
          omega

/-- One page: the first `count` of the matching keys that are left, or all of them. -/
theorem scanCache_eq (ht : Plain t) (hnul : '\x00' ∉ literalPrefix pat) (ha : '\x00' ∉ a) (hcount : 0 < count) :
    scanCache t now pat a count = some (answer count (left t now pat a)) := by
  have hpage : 0 < pageSize count := by
    unfold pageSize
    split <;> omega
  rw [scanCache, scanLoop_eq hpage ht hnul ha hcount (Nat.lt_succ_of_le length_behind_le), nil_append]

theorem scanCache_nul (hnul : '\x00' ∈ literalPrefix pat) (hcount : 0 < count) : scanCache t now pat a count = none := by
  rw [scanCache, scanLoop, if_neg (by simpa using hcount.ne'), list, if_pos (.inl hnul)]

theorem left_ordered : (left t now pat a).Pairwise (· < ·) := behind_ordered.filter _

theorem left_of_split (h : left t now pat a = done ++ c :: rest) : left t now pat c = rest := by
  have ho : (done ++ c :: rest).Pairwise (· < ·) := h ▸ left_ordered
  have hmem : c ∈ left t now pat a := h ▸ mem_append_right _ mem_cons_self
  have hc : a < c := lt_of_mem_behind (mem_filter.1 hmem).1
  have hfilter : left t now pat c = (left t now pat a).filter fun k => decide (c < k) := by
    rw [left, left, rowsLeft, behind_eq_filter hc, List.filter_filter, List.filter_filter]
    exact filter_congr fun k _ => Bool.and_comm ..
  rw [hfilter, h]
  exact filter_lt_of_split ho

/-! ## Following the cursor -/

/-- What the pages of `ks` come to: they end where a page ends with the key `0`. -/
def reach (count : Nat) (ks : List Text) : List Text :=
  if zero ∈ ks ∧ count ∣ ks.idxOf zero + 1 then ks.take (ks.idxOf zero + 1) else ks

theorem reach_short (h : ks.length < count) : reach count ks = ks := by
  rw [reach, if_neg]
  rintro ⟨hmem, hdvd⟩
  have hidx := idxOf_lt_length_of_mem hmem
  have := Nat.le_of_dvd (Nat.succ_pos _) hdvd
  omega

theorem reach_stop (hnot : zero ∉ done) (hlen : done.length + 1 = count) : reach count (done ++ zero :: rest) = done ++ [zero] := by
  have hidx : (done ++ zero :: rest).idxOf zero = done.length := by
    rw [idxOf_append_of_notMem hnot, idxOf_cons_self, Nat.add_zero]
  rw [reach, hidx, if_pos ⟨mem_append_right _ mem_cons_self, hlen ▸ Nat.dvd_refl _⟩, append_cons, take_left']
  simp

theorem reach_next {page : List Text} (hnd : (page ++ rest).Nodup) (hlen : page.length = count)
    (hlast : page.getLast? ≠ some zero) : reach count (page ++ rest) = page ++ reach count rest := by
  by_cases hpage : zero ∈ page
  · -- inside of the page
    have hrest : zero ∉ rest := fun hr => (nodup_append.1 hnd).2.2 zero hpage zero hr rfl
    have hidx : (page ++ rest).idxOf zero = page.idxOf zero := idxOf_append_of_mem hpage
    have hlt := idxOf_lt_length_of_mem hpage
    have hne : page.idxOf zero + 1 ≠ page.length := by
      intro heq
      refine hlast ?_
      rw [getLast?_eq_getElem?, ← heq, Nat.add_sub_cancel, getElem?_eq_getElem hlt, getElem_idxOf hlt]
    rw [reach, reach, hidx, if_neg, if_neg (fun h => hrest h.1)]
    rintro ⟨-, hdvd⟩
    have := Nat.le_of_dvd (Nat.succ_pos _) hdvd
    omega
  · have hidx : (page ++ rest).idxOf zero = page.length + rest.idxOf zero := idxOf_append_of_notMem hpage
    have hcond : (zero ∈ page ++ rest ∧ count ∣ (page ++ rest).idxOf zero + 1) ↔ (zero ∈ rest ∧ count ∣ rest.idxOf zero + 1) := by
      rw [mem_append, hidx, hlen, Nat.add_assoc, Nat.dvd_add_right (Nat.dvd_refl count)]
      simp [hpage]
    rw [reach, reach]
    by_cases hc : zero ∈ rest ∧ count ∣ rest.idxOf zero + 1
    · rw [if_pos (hcond.2 hc), if_pos hc, hidx, Nat.add_assoc, take_length_add_append]
    · rw [if_neg (fun h => hc (hcond.1 h)), if_neg hc]

variable {opts : List Text} {o : Options}

variable {cursor : Text}

theorem cmdScan_eq (ho : scanOptions opts .default = some o) (ht : Plain t) (hnul : '\x00' ∉ literalPrefix o.pat) (hc : '\x00' ∉ cursor) :
    cmdScan t now cursor opts = some (answer o.count (left t now o.pat (if cursor = zero then [] else cursor))) := by
  simp only [cmdScan, ho]
  refine scanCache_eq ht hnul ?_ o.count_pos
  split
  · exact not_mem_nil
  · exact hc

theorem full_page (hcount : 0 < count) (h : count ≤ (left t now pat a).length) :
    ∃ done c, (left t now pat a).take count = done ++ [c] ∧
      left t now pat a = done ++ c :: left t now pat c ∧ done.length + 1 = count := by
  rcases eq_nil_or_concat ((left t now pat a).take count) with hnil | ⟨done, c, hc⟩
  · rw [take_eq_nil_iff] at hnil
    rcases hnil with hnil | hnil
    · exact absurd hnil hcount.ne'
    · rw [hnil] at h
      exact absurd h (Nat.not_le.2 hcount)
  · rw [concat_eq_append] at hc
    have hsplit : left t now pat a = done ++ c :: (left t now pat a).drop count := by
      rw [append_cons, ← hc, take_append_drop]
    have hlen := congrArg List.length hc
    rw [length_take, Nat.min_eq_left h, length_append, length_singleton] at hlen
    exact ⟨done, c, hc, by rw [left_of_split hsplit]; exact hsplit, hlen.symm⟩

theorem left_nodup : (left t now pat a).Nodup := left_ordered.imp fun h => ne_of_lt h

theorem mem_rows_of_left (h : k ∈ left t now pat a) : ∃ r ∈ t.rows, r.key = k :=
  mem_rows_of_behind (mem_filter.1 h).1

theorem follow_spec (ho : scanOptions opts .default = some o) (ht : Plain t)
    (hnul : '\x00' ∉ literalPrefix o.pat) (hc : '\x00' ∉ cursor) :
    (∀ pages, follow t now opts fuel cursor = some pages →
      pages.flatten = reach o.count (left t now o.pat (if cursor = zero then [] else cursor))) ∧
      ((left t now o.pat (if cursor = zero then [] else cursor)).length < fuel →
        ∃ pages, follow t now opts fuel cursor = some pages) := by
  induction fuel generalizing cursor with
  | zero => exact ⟨nofun, fun h => absurd h (Nat.not_lt_zero _)⟩
  | succ fuel ih =>
    rw [follow, cmdScan_eq ho ht hnul hc]
    simp only [answer]
    generalize ha : (if cursor = zero then [] else cursor) = a
    by_cases hfull : o.count ≤ (left t now o.pat a).length
    · obtain ⟨done, c, hpage, hsplit, hlen⟩ := full_page o.count_pos hfull
      have hnd : (left t now o.pat a).Nodup := left_nodup
      have hmem : c ∈ left t now o.pat a := by
        rw [hsplit]
        exact mem_append_right _ mem_cons_self
      simp only [if_pos hfull, hpage, getLast?_concat, getD_some]
      rw [hsplit] at hnd ⊢
      split
      · next hz =>
        subst hz
        have hnot : zero ∉ done := fun hmem => (nodup_append.1 hnd).2.2 zero hmem zero mem_cons_self rfl
        refine ⟨fun pages h => ?_, fun _ => ⟨_, rfl⟩⟩
        cases h
        rw [reach_stop hnot hlen, flatten_singleton]
      · next hz =>
        obtain ⟨r, hr, rfl⟩ := mem_rows_of_left hmem
        obtain ⟨hflat, hends⟩ := ih (ht r hr)
        rw [if_neg hz] at hflat hends
        refine ⟨fun pages h => ?_, fun hfuel => ?_⟩
        · obtain ⟨pages', hpages, rfl⟩ := map_eq_some_iff.1 h
          rw [append_cons] at hnd
          have hreach := reach_next hnd (by simpa using hlen) (by simpa using hz)
          rw [← append_cons] at hreach
          rw [flatten_cons, hflat _ hpages, hreach]
        · rw [length_append, length_cons] at hfuel
          obtain ⟨pages, hpages⟩ := hends (by omega)
          exact ⟨_, congrArg (Option.map _) hpages⟩
    · simp only [if_neg hfull, if_true, Option.some.injEq]
      exact ⟨fun pages h => by rw [reach_short (Nat.not_le.1 hfull), ← h, flatten_singleton], fun _ => ⟨_, rfl⟩⟩

theorem left_nil_eq (hne : ∀ r ∈ t.rows, r.key ≠ []) (pat : Text) :
    left t now pat [] = (wanted t now pat).filter fun k => decide (k < prefixUpper (literalPrefix pat)) := by
  rw [left, rowsLeft, behind, wanted, List.filter_map, List.filter_map, List.filter_filter, List.filter_filter]
  congr 1
  refine filter_congr fun r hr => ?_
  have hpos : [] < r.key := by
    cases hk : r.key with
    | nil => exact absurd hk (hne r hr)
    | cons c k => exact nil_lt_cons c k
  by_cases hm : matchesKey pat r.key = true
  · have hle := Data.le_of_isPrefix (literalPrefix_isPrefix hm)
    by_cases hlt : r.key < prefixUpper (literalPrefix pat) <;> simp [hm, hle, hlt, hpos]
  · simp [hm]

theorem wanted_ordered : (wanted t now pat).Pairwise (· < ·) := pairwise_map.2 (t.ordered.filter _)

theorem countP_le_of_split (ho : (done ++ c :: rest).Pairwise (· < ·)) : (done ++ c :: rest).countP (· ≤ c) = done.length + 1 := by
  obtain ⟨-, hrest, hlt⟩ := pairwise_append.1 ho
  rw [countP_append, countP_cons_of_pos (by simp), countP_eq_length.2, countP_eq_zero.2]
  · intro k hk
    simpa using (pairwise_cons.1 hrest).1 k hk
  · intro k hk
    simpa using (hlt k hk c mem_cons_self).le

/-- All keys are reached exactly if the key `0` ends no page but the last. -/
theorem reach_eq_iff (ho : ks.Pairwise (· < ·)) :
    reach count ks = ks ↔ (zero ∈ ks → count ∣ ks.countP (· ≤ zero) → ∀ k ∈ ks, k ≤ zero) := by
  by_cases hmem : zero ∈ ks
  · obtain ⟨done, rest, rfl⟩ := append_of_mem hmem
    have hnd : (done ++ zero :: rest).Nodup := ho.imp fun h => ne_of_lt h
    have hnot : zero ∉ done := fun hm => (nodup_append.1 hnd).2.2 zero hm zero mem_cons_self rfl
    have hidx : (done ++ zero :: rest).idxOf zero = done.length := by
      rw [idxOf_append_of_notMem hnot, idxOf_cons_self, Nat.add_zero]
    obtain ⟨-, hrest, hlt⟩ := pairwise_append.1 ho
    rw [countP_le_of_split ho, reach, hidx]
    by_cases hdvd : count ∣ done.length + 1
    · rw [if_pos ⟨hmem, hdvd⟩, append_cons, take_left' (by simp)]
      constructor
      · intro heq _ _ k hk
        have hnil : rest = [] := by
          have := congrArg List.length heq
          simpa using this
        subst hnil
        rw [append_nil] at hk
        rcases mem_append.1 hk with hk | hk
        · exact (hlt k hk zero mem_cons_self).le
        · exact (mem_singleton.1 hk).le
      · intro hall
        cases rest with
        | nil => rw [append_nil]
        | cons c rest =>
          rw [← append_cons] at hall
          have hle := hall hmem hdvd c (by simp)
          exact absurd ((pairwise_cons.1 hrest).1 c mem_cons_self) (not_lt.2 hle)
    · rw [if_neg fun h => hdvd h.2]
      exact iff_of_true rfl fun _ h => absurd h hdvd
  · rw [reach, if_neg fun h => hmem h.1]
    exact iff_of_true rfl fun h => absurd h hmem

/-- A scan is complete exactly if it is safe. -/
theorem scan_complete_iff (t : Table) (now : Nat) (opts : List Text) (o : Options) (ho : scanOptions opts .default = some o)
    (hkeys : ∀ r ∈ t.rows, r.key ≠ [] ∧ '\x00' ∉ r.key) : Complete t now opts o.pat ↔ Safe t now o.pat o.count := by
  have ht : Plain t := fun r hr => (hkeys r hr).2
  have hleft : left t now o.pat [] = (wanted t now o.pat).filter fun k => decide (k < prefixUpper (literalPrefix o.pat)) :=
    left_nil_eq (fun r hr => (hkeys r hr).1) o.pat
  have hz : '\x00' ∉ zero := by decide
  constructor
  · rintro ⟨fuel, pages, hfollow, hnd, hmem⟩
    have hnul : '\x00' ∉ literalPrefix o.pat := by
      intro hin
      cases fuel with
      | zero => cases hfollow
      | succ fuel =>
        rw [follow, cmdScan, ho] at hfollow
        simp only [scanCache_nul hin o.count_pos] at hfollow
        cases hfollow
    have hflat := (follow_spec ho ht hnul hz).1 _ hfollow
    rw [if_pos rfl] at hflat
    have hsub : ∀ k ∈ wanted t now o.pat, k ∈ left t now o.pat [] := by
      intro k hk
      rw [← hmem, hflat, reach] at hk
      split at hk
      · exact mem_of_mem_take hk
      · exact hk
    have hupper : ∀ k ∈ wanted t now o.pat, k < prefixUpper (literalPrefix o.pat) := by
      intro k hk
      have := hsub k hk
      rw [hleft] at this
      exact of_decide_eq_true (mem_filter.1 this).2
    have hall : left t now o.pat [] = wanted t now o.pat := by
      rw [hleft]
      exact filter_eq_self.2 fun k hk => decide_eq_true (hupper k hk)
    rw [hall] at hflat
    refine ⟨hnul, fun k hk => ?_, (reach_eq_iff wanted_ordered).1 ?_⟩
    · obtain ⟨r, hr, rfl⟩ := mem_map.1 hk
      have hm := (Bool.and_eq_true_iff.1 (mem_filter.1 hr).2).2
      exact (lt_prefixUpper_iff (literalPrefix_isPrefix hm)).1 (hupper _ hk)
    · -- what was returned has all of the wanted keys
      have hsubl : (reach o.count (wanted t now o.pat)).Sublist (wanted t now o.pat) := by
        unfold reach
        split
        · exact take_sublist _ _
        · exact List.Sublist.refl _
      refine hsubl.eq_of_length_le ?_
      rw [← hflat]
      exact (List.Nodup.subperm (wanted_ordered.imp fun h => ne_of_lt h) fun k hk => (hmem k).2 hk).length_le
  · rintro ⟨hnul, hupper, hcursor⟩
    have hall : left t now o.pat [] = wanted t now o.pat := by
      rw [hleft]
      refine filter_eq_self.2 fun k hk => decide_eq_true ?_
      obtain ⟨r, hr, rfl⟩ := mem_map.1 hk
      have hm := (Bool.and_eq_true_iff.1 (mem_filter.1 hr).2).2
      exact (lt_prefixUpper_iff (literalPrefix_isPrefix hm)).2 (hupper _ hk)
    obtain ⟨pages, hpages⟩ : ∃ pages, follow t now opts
        ((left t now o.pat (if zero = zero then [] else zero)).length + 1) zero = some pages :=
      (follow_spec ho ht hnul hz).2 (Nat.lt_succ_self _)
    have hflat := (follow_spec ho ht hnul hz).1 _ hpages
    rw [if_pos rfl, hall, (reach_eq_iff wanted_ordered).2 hcursor] at hflat
    exact ⟨_, pages, hpages, hflat ▸ wanted_ordered.imp fun h => ne_of_lt h, fun k => by rw [hflat]⟩

def plainRow (k : Text) : Row := ⟨k, 0, [], none, 0, none, none⟩

/-- The keys `0` and `a`. -/
def twoKeys : Table := ⟨[plainRow ['0'], plainRow ['a']], by decide⟩

/-- A page of two keys does not end at the first one. -/
theorem two_keys_complete : Complete twoKeys 0 ["match".toList, "[0-9a]*".toList, "COUNT".toList, "2".toList] "[0-9a]*".toList :=
  (scan_complete_iff twoKeys 0 _ ⟨2, "[0-9a]*".toList, by decide⟩ rfl (by decide)).2 ⟨by decide, by decide, by decide⟩

/-- A page of one key ends at `0`, and `a` is never returned. -/
theorem scan_stops_at_zero : ¬ ∀ (t : Table) (now : Nat) (opts : List Text) (o : Options), scanOptions opts .default = some o →
      (∀ r ∈ t.rows, r.key ≠ [] ∧ '\x00' ∉ r.key) → Complete t now opts o.pat := by
  intro hclaim
  obtain ⟨fuel, pages, hfollow, -, hmem⟩ := hclaim twoKeys 0 ["COUNT".toList, "1".toList] ⟨1, ['*'], by decide⟩ rfl (by decide)
  cases fuel with
  | zero => cases hfollow
  | succ fuel =>
    have hfirst : cmdScan twoKeys 0 zero ["COUNT".toList, "1".toList] = some (zero, [zero]) := by decide
    cases hfollow
    exact absurd ((hmem ['a']).2 (by decide)) (by decide)

end Pgvs3.Scan
