import Mathlib
/-!
# Texts cut, trimmed and read as numbers

The functions of a `strings` package over lists, and decimal numbers of 64 bits.
-/

namespace Data

open List

section Lists

variable {α : Type} [DecidableEq α] {c x : α} {xs l : List α}

/-- What comes before and after the first `c`. -/
def cut (c : α) : List α → Option (List α × List α)
  | [] => none
  | x :: xs => if x = c then some ([], xs) else (cut c xs).map fun p => (x :: p.1, p.2)

theorem cut_append {a : List α} (ha : c ∉ a) (b : List α) : cut c (a ++ c :: b) = some (a, b) := by
  induction a with
  | nil => simp [cut]
  | cons x xs ih =>
    simp only [mem_cons, not_or] at ha
    simp [cut, Ne.symm ha.1, ih ha.2]

/-- The list up to the end of the first `d` in it. -/
def upTo (d : List α) : List α → Option (List α)
  | [] => if d = [] then some [] else none
  | x :: xs => if d.isPrefixOf (x :: xs) then some d else (upTo d xs).map (x :: ·)

theorem upTo_isPrefix {d h : List α} (hu : upTo d l = some h) : h <+: l := by
  induction l generalizing h with
  | nil =>
    rw [upTo] at hu
    split at hu <;> cases hu
    exact List.nil_prefix
  | cons x xs ih =>
    rw [upTo] at hu
    split at hu
    · next hd =>
      cases hu
      exact List.isPrefixOf_iff_prefix.1 hd
    · obtain ⟨h', hh', rfl⟩ := Option.map_eq_some_iff.1 hu
      exact cons_prefix_cons.2 ⟨rfl, ih hh'⟩

theorem length_le_of_upTo {d h : List α} (hu : upTo d l = some h) : d.length ≤ h.length := by
  induction l generalizing h with
  | nil =>
    rw [upTo] at hu
    split at hu <;> cases hu
    next hd => simp [hd]
  | cons x xs ih =>
    rw [upTo] at hu
    split at hu
    · cases hu
      exact Nat.le_refl _
    · obtain ⟨h', hh', rfl⟩ := Option.map_eq_some_iff.1 hu
      exact Nat.le_succ_of_le (ih hh')

theorem upTo_of_isPrefix {d l' h : List α} (hu : upTo d l = some h) (hl' : h <+: l') :
    upTo d l' = some h := by
  induction l generalizing h l' with
  | nil =>
    rw [upTo] at hu
    split at hu <;> cases hu
    next hd =>
      subst hd
      cases l' <;> simp [upTo]
  | cons x xs ih =>
    have hlen := length_le_of_upTo hu
    have hpre := upTo_isPrefix hu
    rw [upTo] at hu
    split at hu
    · next hd =>
      cases hu
      cases l' with
      | nil => simp [upTo, prefix_nil.1 hl']
      | cons y ys => rw [upTo, if_pos (List.isPrefixOf_iff_prefix.2 hl')]
    · next hd =>
      obtain ⟨h', hh', rfl⟩ := Option.map_eq_some_iff.1 hu
      obtain ⟨ys, rfl⟩ : ∃ ys, l' = x :: ys := by
        obtain ⟨t, rfl⟩ := hl'
        exact ⟨h' ++ t, rfl⟩
      -- A `d` that comes first in the other list lies within the beginning that they share.
      have hfirst : ¬ d.isPrefixOf (x :: ys) = true := fun hd' =>
        hd (List.isPrefixOf_iff_prefix.2
          ((prefix_of_prefix_length_le (List.isPrefixOf_iff_prefix.1 hd') hl' hlen).trans hpre))
      rw [upTo, if_neg hfirst, ih hh' (cons_prefix_cons.1 hl').2]
      rfl

variable (p : α → Bool)

omit [DecidableEq α] in
def trim (l : List α) : List α := ((l.dropWhile p).reverse.dropWhile p).reverse

omit [DecidableEq α] in
theorem mem_of_mem_trim (h : x ∈ trim p l) : x ∈ l :=
  (dropWhile_sublist p).subset (mem_reverse.1 ((dropWhile_sublist p).subset (mem_reverse.1 h)))

omit [DecidableEq α] in
theorem trim_head (h : trim p l = x :: xs) : p x = false := by
  have hpre : x :: xs <+: l.dropWhile p := by
    rw [← h, trim, ← reverse_suffix, reverse_reverse]
    exact dropWhile_suffix p
  obtain ⟨t, ht⟩ := hpre
  have hne : l.dropWhile p ≠ [] := by
    rw [← ht]
    simp
  have hx : (l.dropWhile p).head hne = x := by
    simp [← ht]
  rw [← hx]
  exact head_dropWhile_not p hne

variable {p}

omit [DecidableEq α] in
/-- What is taken off the end of a list, where only one value is. -/
theorem rdropWhile_split (hp : ∀ y, p y → y = x) (l : List α) :
    ∃ n, l = l.rdropWhile p ++ replicate n x := by
  have hall : ∀ y ∈ l.rtakeWhile p, y = x := fun y hy => hp y (mem_rtakeWhile_imp hy)
  refine ⟨(l.rtakeWhile p).length, ?_⟩
  rw [← eq_replicate_of_mem hall, rdropWhile_append_rtakeWhile]

omit [DecidableEq α] in
theorem rdropWhile_append_replicate (hx : p x) (l : List α) (n : Nat) :
    (l ++ replicate n x).rdropWhile p = l.rdropWhile p := by
  induction n with
  | zero => rw [replicate_zero, append_nil]
  | succ n ih => rw [replicate_succ', ← append_assoc, rdropWhile_concat_pos _ _ _ hx, ih]

theorem not_mem_of_mem_splitOn {m : List α} (h : m ∈ l.splitOn c) : c ∉ m := by
  induction l generalizing m with
  | nil => simp_all
  | cons x xs ih =>
    rw [splitOn_cons_eq_if_modifyHead] at h
    split at h
    · rcases mem_cons.1 h with rfl | h
      · simp
      · exact ih h
    · next hx =>
      cases hs : xs.splitOn c with
      | nil => exact absurd hs (splitOn_ne_nil c xs)
      | cons y ys =>
        rw [hs, modifyHead_cons] at h
        rcases mem_cons.1 h with rfl | h
        · have hy : c ∉ y := ih (by simp [hs])
          simp only [beq_iff_eq] at hx
          simp [hy, Ne.symm hx]
        · exact ih (by simp [hs, h])

end Lists

/-! ## White space -/

/-- `unicode.IsSpace`. -/
def isSpace (c : Char) : Bool :=
  [0x09, 0x0a, 0x0b, 0x0c, 0x0d, 0x20, 0x85, 0xa0, 0x1680, 0x2028, 0x2029, 0x202f, 0x205f,
    0x3000].contains c.toNat ||
    (0x2000 ≤ c.toNat && c.toNat ≤ 0x200a)

/-- The white space as it is encoded. -/
def spaces : List (List UInt8) :=
  [[9], [10], [11], [12], [13], [32], [0xc2, 0x85], [0xc2, 0xa0], [0xe1, 0x9a, 0x80],
    [0xe2, 0x80, 0xa8], [0xe2, 0x80, 0xa9], [0xe2, 0x80, 0xaf], [0xe2, 0x81, 0x9f],
    [0xe3, 0x80, 0x80]] ++
    (List.range 11).map fun i => [0xe2, 0x80, 0x80 + UInt8.ofNat i]

def trimLeft (words : List (List UInt8)) : Nat → List UInt8 → List UInt8
  | 0, s => s
  | fuel + 1, s =>
    match words.find? fun w => w.isPrefixOf s with
    | some w => trimLeft words fuel (s.drop w.length)
    | none => s

/-- `strings.TrimSpace` of bytes. -/
def trimSpace (s : List UInt8) : List UInt8 :=
  let s := trimLeft spaces s.length s
  (trimLeft (spaces.map List.reverse) s.length s.reverse).reverse

/-- The printable characters of ASCII. -/
def graphic (b : UInt8) : Bool := 32 < b && b < 127

theorem trimLeft_graphic {words : List (List UInt8)} {s : List UInt8}
    (hw : ∀ w ∈ words, w.head?.any (!graphic ·) = true) (hs : ∀ b ∈ s, graphic b = true)
    (fuel : Nat) : trimLeft words fuel s = s := by
  have hnone : words.find? (fun w => w.isPrefixOf s) = none := by
    refine find?_eq_none.2 fun w hmem hpre => ?_
    obtain ⟨b, hb, hg⟩ := (Option.any_eq_true _ _).1 (hw w hmem)
    have hin := (List.isPrefixOf_iff_prefix.1 hpre).mem (mem_of_head? hb)
    simp [hs b hin] at hg
  cases fuel with
  | zero => rfl
  | succ fuel => simp only [trimLeft, hnone]

theorem trimSpace_graphic {s : List UInt8} (hs : ∀ b ∈ s, graphic b = true) : trimSpace s = s := by
  have hrev : ∀ b ∈ s.reverse, graphic b = true := fun b hb => hs b (mem_reverse.1 hb)
  rw [trimSpace, trimLeft_graphic (by decide) hs, trimLeft_graphic (by decide) hrev,
    reverse_reverse]

/-! ## Numbers -/

def parseNat (s : List Char) : Option Nat :=
  if s ≠ [] ∧ s.all Char.isDigit then some (Nat.ofDigitChars 10 s 0) else none

theorem parseNat_toDigits (n : Nat) : parseNat (Nat.toDigits 10 n) = some n := by
  have hd : (Nat.toDigits 10 n).all Char.isDigit = true := by
    simp only [List.all_eq_true]
    intro c hc
    exact Nat.isDigit_of_mem_toDigits (by decide) (by decide) hc
  rw [parseNat, if_pos ⟨Nat.toDigits_ne_nil, hd⟩, Nat.ofDigitChars_ten_toDigits]

/-- A signed decimal number of 64 bits. -/
def parseInt (s : List Char) : Option Int :=
  match s with
  | '-' :: ds => (parseNat ds).bind fun n => if n ≤ 2 ^ 63 then some (-(n : Int)) else none
  | '+' :: ds => (parseNat ds).bind fun n => if n < 2 ^ 63 then some (n : Int) else none
  | ds => (parseNat ds).bind fun n => if n < 2 ^ 63 then some (n : Int) else none

theorem not_mem_toDigits {c : Char} (hc : c.isDigit = false) (n : Nat) : c ∉ Nat.toDigits 10 n := by
  intro hm
  have := Nat.isDigit_of_mem_toDigits (by decide) (by decide) hm
  simp [hc] at this

theorem parseInt_toDigits {n : Nat} (hn : n < 2 ^ 63) :
    parseInt (Nat.toDigits 10 n) = some (n : Int) := by
  unfold parseInt
  split
  · next ds hs => exact absurd (hs ▸ mem_cons_self) (not_mem_toDigits (by decide) n)
  · next ds hs => exact absurd (hs ▸ mem_cons_self) (not_mem_toDigits (by decide) n)
  · have hn : n < 9223372036854775808 := hn
    simp [parseNat_toDigits, hn]

def decimal (n : Int) : List Char := if n < 0 then '-' ::
    Nat.toDigits 10 n.natAbs else Nat.toDigits 10 n.natAbs

theorem parseInt_decimal {n : Int} (hlo : -2 ^ 63 ≤ n) (hhi : n < 2 ^ 63) :
    parseInt (decimal n) = some n := by
  by_cases h : n < 0
  · have hle : n.natAbs ≤ 2 ^ 63 := by omega
    simp only [decimal, if_pos h, parseInt, parseNat_toDigits, Option.bind_some, if_pos hle]
    rw [Option.some.injEq]
    omega
  · rw [decimal, if_neg h, parseInt_toDigits (by omega), Int.natAbs_of_nonneg (by omega)]

theorem mem_decimal {n : Int} {c : Char} (h : c ∈ decimal n) : c = '-' ∨ c.isDigit = true := by
  have hdigit : ∀ {m : Nat}, c ∈ Nat.toDigits 10 m → c.isDigit = true := fun hc =>
    Nat.isDigit_of_mem_toDigits (by decide) (by decide) hc
  unfold decimal at h
  split at h
  · exact (mem_cons.1 h).imp_right hdigit
  · exact .inr (hdigit h)

/-- Bytes that hold a number, read with the white space around it. -/
def parseBytes (b : List UInt8) : Option Int := parseInt ((trimSpace b).map Char.ofUInt8)

def formatBytes (n : Int) : List UInt8 := (decimal n).map Char.toUInt8

theorem parseBytes_formatBytes {n : Int} (hlo : -2 ^ 63 ≤ n) (hhi : n < 2 ^ 63) :
    parseBytes (formatBytes n) = some n := by
  have hascii : ∀ c ∈ decimal n, graphic c.toUInt8 = true ∧ Char.ofUInt8 c.toUInt8 = c := by
    intro c hc
    have hrange : 32 < c.val.toNat ∧ c.val.toNat < 127 := by
      rcases mem_decimal hc with rfl | hd
      · decide
      · have hd : 48 ≤ c.val.toNat ∧ c.val.toNat ≤ 57 := by
          simp only [Char.isDigit, Bool.and_eq_true, decide_eq_true_eq] at hd
          exact hd
        omega
    have hval : c.toUInt8.toNat = c.val.toNat := by
      simp only [Char.toUInt8, UInt32.toNat_toUInt8]
      omega
    refine ⟨?_, ?_⟩
    · simp only [graphic, Bool.and_eq_true, decide_eq_true_eq, UInt8.lt_iff_toNat_lt, hval]
      exact hrange
    · refine Char.ext (UInt32.toNat_inj.1 ?_)
      rw [← hval]
      rfl
  have hmap : ((decimal n).map Char.toUInt8).map Char.ofUInt8 = decimal n := by
    rw [map_map]
    exact (map_congr_left fun c hc => (hascii c hc).2).trans (map_id' _)
  have hgraphic : ∀ b ∈ formatBytes n, graphic b = true := fun b hb => by
    obtain ⟨c, hc, rfl⟩ := mem_map.1 hb
    exact (hascii c hc).1
  rw [parseBytes, trimSpace_graphic hgraphic, formatBytes, hmap, parseInt_decimal hlo hhi]

/-! ## Hexadecimal digits -/

def hexDigits : Nat → Nat → List Char
  | 0, _ => []
  | width + 1, n => hexDigits width (n / 16) ++ [Nat.digitChar (n % 16)]

@[simp] theorem length_hexDigits (width n : Nat) : (hexDigits width n).length = width := by
  induction width generalizing n with
  | zero => rfl
  | succ width ih => simp [hexDigits, ih]

theorem mem_hexDigits {width n : Nat} {c : Char} (h : c ∈ hexDigits width n) :
    ∃ d < 16, c = Nat.digitChar d := by
  induction width generalizing n with
  | zero => cases h
  | succ width ih =>
    rcases mem_append.1 h with h | h
    · exact ih h
    · exact ⟨n % 16, Nat.mod_lt _ (by decide), mem_singleton.1 h⟩

theorem hexDigits_injective {width n m : Nat} (hn : n < 16 ^ width) (hm : m < 16 ^ width)
    (h : hexDigits width n = hexDigits width m) : n = m := by
  have hdigit : ∀ a < 16, ∀ b < 16, Nat.digitChar a = Nat.digitChar b → a = b := by decide
  induction width generalizing n m with
  | zero => simp at hn hm; omega
  | succ width ih =>
    obtain ⟨hhi, hlo⟩ := append_inj' h rfl
    have hdiv := ih (by omega) (by omega) hhi
    have hmod := hdigit _ (Nat.mod_lt _ (by decide)) _ (Nat.mod_lt _ (by decide))
      (List.cons.inj hlo).1
    omega

end Data
