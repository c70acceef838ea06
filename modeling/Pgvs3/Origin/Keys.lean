import Pgvs3.Data.Bytes
import Pgvs3.Data.Text
import Pgvs3.Ns
/-!
# Origin key mapping

A pair of a bucket and a key goes to an object name: a URL, or a path below the root of a
filesystem. PostgreSQL has taken the key before, so that it is a text. The HTTP driver drops empty
segments, the S3 driver leading slashes, which are the key's own when the bucket is stripped and
there is no prefix: `mapping_collides`.
-/

namespace Pgvs3.Origin

open List

/-! ## Percent encoding -/

/-- The bytes of a text in UTF-8. -/
def utf8 (s : Text) : Bytes := (String.ofList s).toByteArray.data.toList

theorem utf8_injective {s t : Text} (h : utf8 s = utf8 t) : s = t := by
  have ha : (String.ofList s).toByteArray.data = (String.ofList t).toByteArray.data := Array.ext' h
  have hb : (String.ofList s).toByteArray = (String.ofList t).toByteArray := ByteArray.ext ha
  exact String.ofList_injective (String.toByteArray_inj.1 hb)

/-- A digit of `0123456789ABCDEF`. -/
def hexDigit (n : Nat) : Char := if n < 10 then Char.ofNat (48 + n) else Char.ofNat (55 + n)

def unhex (c : Char) : Option Nat :=
  if '0' ≤ c ∧ c ≤ '9' then some (c.toNat - 48)
  else if 'A' ≤ c ∧ c ≤ 'F' then some (c.toNat - 55)
  else if 'a' ≤ c ∧ c ≤ 'f' then some (c.toNat - 87)
  else none

def escapeByte (keep : UInt8 → Bool) (b : UInt8) : Text :=
  if keep b then [Char.ofNat b.toNat] else ['%', hexDigit (b.toNat / 16), hexDigit (b.toNat % 16)]

def escape (keep : UInt8 → Bool) (bs : Bytes) : Text := bs.flatMap (escapeByte keep)

/-- The bytes that an escaped text stands for. -/
def unescape : Text → Option Bytes
  | [] => some []
  | '%' :: h :: l :: s =>
    match unhex h, unhex l, unescape s with
    | some h, some l, some bs => some (UInt8.ofNat (h * 16 + l) :: bs)
    | _, _, _ => none
  | c :: s => if c = '%' then none else (unescape s).map (UInt8.ofNat c.toNat :: ·)

theorem unhex_hexDigit : ∀ n < 16, unhex (hexDigit n) = some n := by decide

theorem toNat_ofNat_byte {n : Nat} (hn : n < 256) : (Char.ofNat n).toNat = n := by
  have hv : n.isValidChar := .inl (by omega)
  simp [Char.ofNat, hv, Char.ofNatAux, Char.toNat]

variable {keep : UInt8 → Bool}

theorem unescape_escapeByte (hk : keep 37 = false) (b : UInt8) (s : Text) :
    unescape (escapeByte keep b ++ s) = (unescape s).map (b :: ·) := by
  have hb : b.toNat < 256 := b.toNat_lt
  unfold escapeByte
  split
  · next hkeep =>
    have hc : (Char.ofNat b.toNat).toNat = b.toNat := toNat_ofNat_byte hb
    have hne : Char.ofNat b.toNat ≠ '%' := by
      intro he
      have h37 : b.toNat = 37 := by
        rw [← hc, he]
        decide
      have : b = 37 := UInt8.toNat_inj.1 h37
      simp [this, hk] at hkeep
    rw [singleton_append, unescape]
    · simp [hne, hc]
    · intro h l t he
      exact absurd he hne
  · have hval : UInt8.ofNat (b.toNat / 16 * 16 + b.toNat % 16) = b := by
      rw [Nat.div_add_mod']
      simp
    simp only [cons_append, nil_append, unescape, unhex_hexDigit _ (by omega : b.toNat / 16 < 16),
      unhex_hexDigit _ (by omega : b.toNat % 16 < 16)]
    cases unescape s with
    | none => rfl
    | some bs => simp only [hval, Option.map_some]

theorem unescape_escape (hk : keep 37 = false) (bs : Bytes) :
    unescape (escape keep bs) = some bs := by
  induction bs with
  | nil => rfl
  | cons b bs ih =>
    have hcons : escape keep (b :: bs) = escapeByte keep b ++ escape keep bs := rfl
    rw [hcons, unescape_escapeByte hk, ih]
    rfl

/-! ## Names -/

structure Pair where
  bucket : Text
  key : Text
deriving DecidableEq, Repr

/-- A bucket name has no slash and a key is not empty. -/
structure Pair.Valid (p : Pair) : Prop where
  bucket_ne : p.bucket ≠ []
  bucket_slash : '/' ∉ p.bucket
  key_ne : p.key ≠ []

/-- `objcache/cache.go:225`. -/
def Pair.cacheKey (p : Pair) : Text := p.bucket ++ '/' :: p.key

def isSlash (c : Char) : Bool := c == '/'

/-- `strings.TrimLeft(s, "/")`. -/
def trimSlashes (s : Text) : Text := s.dropWhile isSlash

/-- `strings.TrimPrefix(s, "/")`. -/
def trimOneSlash (s : Text) : Text :=
  match s with
  | '/' :: t => t
  | t => t

/-- `origin.go:158-160`. -/
def newOriginPrefix (s : Text) : Text := Data.trim isSlash s

/-- `origin.go:162-167`. -/
def prefixKey (pfx key : Text) : Text := if pfx = [] then key else pfx ++ '/' :: key

/-- `origin.go:224-230`. -/
def splitBucket (key : Text) : Text × Text :=
  let key := trimOneSlash key
  match Data.cut '/' key with
  | some (bucket, rest) => (bucket ++ ['/'], rest)
  | none => (key, [])

/-- The S3 client; `host` has the bucket in front unless `pathStyle` (`origin.go:418-420`). -/
structure S3Client where
  scheme : Text
  host : Text
  bucket : Text
  pathStyle : Bool

/-- The base URL of an HTTP origin: what comes before its path, the path, the path as it is written,
and what comes after it (`origin.go:611-615`). -/
structure HttpBase where
  site : Text
  path : Text
  written : Text
  tail : Text
  written_path : unescape written = some (utf8 path)

inductive Target where
  | s3 (c : S3Client)
  | http (base : HttpBase)
  | filesystem

/-- `Config.Prefix`, `strip_bucket` and the driver (`origin.go:31-35`). -/
structure Config where
  target : Target
  configPrefix : Text
  stripBucket : Bool

/-- The drivers of a directory have no `strip_bucket` (`registry.go:115-122`). -/
def Config.strips (o : Config) : Bool :=
  match o.target with
  | .filesystem => false
  | _ => o.stripBucket

/-- `origin.go:217-222`. -/
def Config.physicalKey (o : Config) (key : Text) : Text :=
  prefixKey (newOriginPrefix o.configPrefix) (if o.strips then (splitBucket key).2 else key)

/-- `client.objectKey`; the client of an origin has no prefix of its own (`client.go:187-196`). -/
def objectKey (key : Text) : Option Text :=
  let key := trimSlashes key
  if key = [] ∨ key = ['.'] then none else some key

def unreserved (b : UInt8) : Bool :=
  (97 ≤ b && b ≤ 122) || (65 ≤ b && b ≤ 90) || (48 ≤ b && b ≤ 57) || b ∈ [45, 95, 46, 126]

/-- `escapePath` keeps the unreserved characters and the slash (`client.go:437-454`). -/
def escapePath (s : Text) : Text := escape (fun b => unreserved b || b == 47) (utf8 s)

/-- `target`: the decoded path of an object. -/
def S3Client.decodedPath (c : S3Client) (object : Text) : Text :=
  if c.pathStyle then '/' :: (c.bucket ++ '/' :: object) else '/' :: object

/-- `client.go:172-185`. -/
def S3Client.url (c : S3Client) (object : Text) : Text :=
  c.scheme ++ "://".toList ++ c.host ++ escapePath (c.decodedPath object)

def segments (s : Text) : List Text := (s.splitOn '/').filter (· ≠ [])

/-- `url.URL.EscapedPath` keeps the unreserved characters and `$&+,/:;=@`. -/
def escapedPath (s : Text) : Text :=
  escape (fun b => unreserved b || b ∈ [36, 38, 43, 44, 47, 58, 59, 61, 64]) (utf8 s)

def joinSegments (ss : List Text) : Text := ['/'].intercalate ss

/-- `strings.TrimRight(s, "/")`. -/
def trimRightSlashes (s : Text) : Text := (s.reverse.dropWhile isSlash).reverse

def HttpBase.keyPath (b : HttpBase) (ss : List Text) : Text := trimRightSlashes b.path ++ '/' ::
    joinSegments ss

/-- `origin.go:671-687`. -/
def urlFor (b : HttpBase) (key : Text) : Text :=
  let clean := segments (trimOneSlash key)
  if clean = [] then b.site ++ b.written ++ b.tail
  else b.site ++ escapedPath (b.keyPath clean) ++ b.tail

def localTempDir : Text := ".pgvs3-tmp".toList

/-- `origin.go:1286-1296`. -/
def validLocalKey (key : Text) : Bool :=
  !(key.contains '\x00' || key == localTempDir || (localTempDir ++ ['/']).isPrefixOf key) &&
    (key.splitOn '/').all fun part =>
      !(part == [] || part == ".".toList || part == "..".toList || 255 < (utf8 part).length)

/-- The object that a request about the pair goes to, if the driver accepts the pair
(`origin.go:379-385`). -/
def Config.name (o : Config) (p : Pair) : Option Text :=
  let key := o.physicalKey p.cacheKey
  match o.target with
  | .s3 c => (objectKey key).map c.url
  | .http b => some (urlFor b key)
  | .filesystem => if validLocalKey key then some key else none

/-- A PUT or DELETE of the pair, at an origin with the objects `objs`, which it tells apart by the
text of the URL. -/
def Config.write {α : Type} (o : Config) (p : Pair) (x : Option α)
    (objs : Text → Option α) : Text → Option α :=
  match o.name p with
  | some n => fun m => if m = n then x else objs m
  | none => objs

def Config.read {α : Type} (o : Config) (p : Pair) (objs : Text → Option α) : Option α :=
  (o.name p).bind objs

/-- What tells two pairs apart for the driver. -/
def Config.Apart (o : Config) (p q : Pair) : Prop :=
  match o.target with
  | .s3 _ =>
    o.strips = true → newOriginPrefix o.configPrefix = [] → trimSlashes p.key ≠ trimSlashes q.key
  | .http _ => (o.strips = false ∧ p.bucket ≠ q.bucket) ∨ segments p.key ≠ segments q.key
  | .filesystem => True

/-! ## Texts that can be read back -/

theorem escape_injective (hk : keep 37 = false) {s t : Text}
    (h : escape keep (utf8 s) = escape keep (utf8 t)) : s = t := by
  have hs := unescape_escape hk (utf8 s)
  rw [h, unescape_escape hk, Option.some.injEq] at hs
  exact utf8_injective hs.symm

theorem S3Client.url_injective (c : S3Client) {a b : Text} (h : c.url a = c.url b) : a = b := by
  have hp : c.decodedPath a = c.decodedPath b := escape_injective (by decide) (append_cancel_left h)
  unfold S3Client.decodedPath at hp
  split at hp <;> simpa using hp

variable {p q : Pair} {s t : Text}

theorem prefixKey_injective {pfx : Text} (h : prefixKey pfx s = prefixKey pfx t) : s = t := by
  unfold prefixKey at h
  split at h
  · exact h
  · simpa using h

theorem cacheKey_injective (hp : p.Valid) (hq : q.Valid) (h : p.cacheKey = q.cacheKey) : p = q := by
  have hcut := congrArg (Data.cut '/') h
  rw [Pair.cacheKey, Pair.cacheKey, Data.cut_append hp.bucket_slash,
    Data.cut_append hq.bucket_slash] at hcut
  cases p
  cases q
  simp_all

theorem Pair.Valid.head (hp : p.Valid) : ∃ c t, p.bucket = c :: t ∧ isSlash c = false := by
  cases hb : p.bucket with
  | nil => exact absurd hb hp.bucket_ne
  | cons c t =>
    refine ⟨c, t, rfl, ?_⟩
    have hs := hp.bucket_slash
    rw [hb, mem_cons, not_or] at hs
    simpa [isSlash] using Ne.symm hs.1

theorem splitBucket_cacheKey (hp : p.Valid) : (splitBucket p.cacheKey).2 = p.key := by
  obtain ⟨c, t, hb, hc⟩ := hp.head
  have hone : trimOneSlash p.cacheKey = p.cacheKey := by
    unfold trimOneSlash
    split
    · next he =>
      rw [Pair.cacheKey, hb, cons_append, List.cons.injEq] at he
      simp [he.1, isSlash] at hc
    · rfl
  simp only [splitBucket, hone]
  rw [Pair.cacheKey, Data.cut_append hp.bucket_slash]

theorem physicalKey_cacheKey (o : Config) (hp : p.Valid) : o.physicalKey p.cacheKey =
      prefixKey (newOriginPrefix o.configPrefix) (if o.strips then p.key else p.cacheKey) := by
  rw [Config.physicalKey, splitBucket_cacheKey hp]

/-- Within one bucket if it is stripped, the drivers get different keys for different pairs. -/
theorem physicalKey_injective (o : Config) (hp : p.Valid) (hq : q.Valid)
    (hb : o.strips = true → p.bucket = q.bucket)
    (h : o.physicalKey p.cacheKey = o.physicalKey q.cacheKey) :
    p = q := by
  rw [physicalKey_cacheKey o hp, physicalKey_cacheKey o hq] at h
  have hk := prefixKey_injective h
  cases hs : o.strips with
  | false =>
    simp only [hs, Bool.false_eq_true, if_false] at hk
    exact cacheKey_injective hp hq hk
  | true =>
    simp only [hs, if_true] at hk
    have := hb hs
    cases p
    cases q
    simp_all

theorem trimSlashes_of_head {c : Char} (h : isSlash c = false) : trimSlashes (c :: s) = c :: s :=
  dropWhile_cons_of_neg (by simp [h])

/-- Only the key of a stripped bucket without a prefix can start with a slash. -/
theorem trimSlashes_physicalKey (o : Config) (hp : p.Valid)
    (h : ¬ (o.strips = true ∧ newOriginPrefix o.configPrefix = [])) :
    trimSlashes (o.physicalKey p.cacheKey) = o.physicalKey p.cacheKey := by
  rw [physicalKey_cacheKey o hp]
  cases hx : newOriginPrefix o.configPrefix with
  | nil =>
    have hs : o.strips = false := by
      cases hs : o.strips with
      | false => rfl
      | true => exact absurd ⟨hs, hx⟩ h
    obtain ⟨c, t, hb, hc⟩ := hp.head
    simp only [prefixKey, hs, Bool.false_eq_true, if_false, if_true, Pair.cacheKey, hb, cons_append]
    exact trimSlashes_of_head hc
  | cons c t =>
    simp only [prefixKey, cons_append, reduceCtorEq, if_false]
    exact trimSlashes_of_head (Data.trim_head isSlash hx)

/-! ## Segments -/

theorem segments_slash (s t : Text) : segments (s ++ '/' :: t) = segments s ++ segments t := by
  rw [segments, splitOn_append_cons_self, filter_append, segments, segments]

@[simp] theorem segments_nil : segments [] = [] := by
  simp [segments]

theorem segments_trimOneSlash (s : Text) : segments (trimOneSlash s) = segments s := by
  unfold trimOneSlash
  split
  · next t =>
    have := segments_slash [] t
    rw [nil_append, segments_nil, nil_append] at this
    exact this.symm
  · rfl

theorem segments_prefixKey (pfx key : Text) :
    segments (prefixKey pfx key) = segments pfx ++ segments key := by
  unfold prefixKey
  split
  · next h => simp [h]
  · exact segments_slash pfx key

theorem segments_cacheKey (hp : p.Valid) : segments p.cacheKey = p.bucket :: segments p.key := by
  rw [Pair.cacheKey, segments_slash, segments, splitOn_eq_singleton hp.bucket_slash]
  simp [hp.bucket_ne]

theorem mem_segments {m : Text} (h : m ∈ segments s) : m ≠ [] ∧ '/' ∉ m := by
  simp only [segments, mem_filter, decide_eq_true_eq] at h
  exact ⟨h.2, Data.not_mem_of_mem_splitOn h.1⟩

theorem joinSegments_injective (hs : segments s ≠ []) (ht : segments t ≠ [])
    (h : joinSegments (segments s) = joinSegments (segments t)) : segments s = segments t := by
  rw [← splitOn_intercalate '/' (fun l hl => (mem_segments hl).2) hs,
    ← splitOn_intercalate '/' (fun l hl => (mem_segments hl).2) ht]
  exact congrArg (List.splitOn '/') h

theorem trimRightSlashes_split (s : Text) : ∃ n, s = trimRightSlashes s ++ replicate n '/' :=
  Data.rdropWhile_split (by simp [isSlash]) s

theorem HttpBase.keyPath_ne (b : HttpBase) (hs : segments s ≠ []) :
    b.keyPath (segments s) ≠ b.path := by
  intro h
  obtain ⟨m, ms, hm⟩ := exists_cons_of_ne_nil hs
  obtain ⟨hne, hslash⟩ := mem_segments (hm ▸ mem_cons_self : m ∈ segments s)
  obtain ⟨c, cs, rfl⟩ := exists_cons_of_ne_nil hne
  obtain ⟨n, hn⟩ := trimRightSlashes_split b.path
  rw [HttpBase.keyPath] at h
  nth_rewrite 2 [hn] at h
  have hc : c ∈ '/' :: joinSegments (segments s) := by
    rw [hm]
    cases ms <;> simp [joinSegments, List.intercalate, List.intersperse]
  rw [append_cancel_left h] at hc
  simp [(mem_replicate.1 hc).2] at hslash

theorem urlFor_eq_iff (b : HttpBase) (s t : Text) :
    urlFor b s = urlFor b t ↔ segments s = segments t := by
  constructor
  · intro h
    simp only [urlFor, segments_trimOneSlash] at h
    have hmixed : ∀ u : Text, segments u ≠ [] →
        b.site ++ b.written ++ b.tail ≠ b.site ++ escapedPath (b.keyPath (segments u)) ++
          b.tail := by
      intro u hu he
      have hw : b.written = escapedPath (b.keyPath (segments u)) :=
        append_cancel_left (append_cancel_right he)
      have hpath := b.written_path
      rw [hw, escapedPath, unescape_escape (by decide), Option.some.injEq] at hpath
      exact b.keyPath_ne hu (utf8_injective hpath)
    by_cases hs : segments s = []
    · by_cases ht : segments t = []
      · rw [hs, ht]
      · rw [if_pos hs, if_neg ht] at h
        exact absurd h (hmixed t ht)
    · by_cases ht : segments t = []
      · rw [if_neg hs, if_pos ht] at h
        exact absurd h.symm (hmixed s hs)
      · rw [if_neg hs, if_neg ht] at h
        have hp : b.keyPath (segments s) = b.keyPath (segments t) :=
          escape_injective (by decide) (append_cancel_left (append_cancel_right h))
        have hj := append_cancel_left hp
        exact joinSegments_injective hs ht (List.cons.inj hj).2
  · intro h
    simp only [urlFor, segments_trimOneSlash, h]

/-! ## The mapping -/

variable {o : Config} {m n : Text}

theorem http_name_eq_iff (b : HttpBase) (ho : o.target = .http b) (hp : p.Valid) (hq : q.Valid) :
    o.name p = o.name q ↔ (o.strips = false → p.bucket = q.bucket) ∧
      segments p.key = segments q.key := by
  simp only [Config.name, ho, Option.some.injEq, urlFor_eq_iff, physicalKey_cacheKey o hp,
    physicalKey_cacheKey o hq, segments_prefixKey, append_cancel_left_eq]
  cases hs : o.strips with
  | false => simp [segments_cacheKey hp, segments_cacheKey hq]
  | true => simp

theorem objectKey_eq_some {k : Text} (h : objectKey k = some n) : n = trimSlashes k := by
  simp only [objectKey] at h
  split at h
  · cases h
  · simpa using h.symm

theorem s3_name_eq_iff (c : S3Client) (ho : o.target = .s3 c) (hp : p.Valid) (hq : q.Valid)
    (hb : o.strips = true → p.bucket = q.bucket) (hm : o.name p = some m) (hn : o.name q = some n)
    (hne : p ≠ q) :
    m = n ↔ o.strips = true ∧ newOriginPrefix o.configPrefix = [] ∧
      trimSlashes p.key = trimSlashes q.key := by
  simp only [Config.name, ho, Option.map_eq_some_iff] at hm hn
  obtain ⟨a, ha, rfl⟩ := hm
  obtain ⟨b, hb', rfl⟩ := hn
  have ha := objectKey_eq_some ha
  have hb' := objectKey_eq_some hb'
  have hurl : c.url a = c.url b ↔ a = b := ⟨c.url_injective, congrArg c.url⟩
  rw [hurl]
  by_cases hstrip : o.strips = true ∧ newOriginPrefix o.configPrefix = []
  · rw [physicalKey_cacheKey o hp] at ha
    rw [physicalKey_cacheKey o hq] at hb'
    simp only [hstrip, prefixKey, if_true] at ha hb'
    simp [ha, hb', hstrip]
  · rw [trimSlashes_physicalKey o hp hstrip] at ha
    rw [trimSlashes_physicalKey o hq hstrip] at hb'
    constructor
    · intro hab
      exact absurd (physicalKey_injective o hp hq hb (by rw [← ha, ← hb', hab])) hne
    · intro h
      exact absurd ⟨h.1, h.2.1⟩ hstrip

theorem filesystem_name_ne (ho : o.target = .filesystem) (hp : p.Valid) (hq : q.Valid)
    (hm : o.name p = some m) (hn : o.name q = some n) (hne : p ≠ q) : m ≠ n := by
  have hs : o.strips = false := by simp [Config.strips, ho]
  have hkey : ∀ {r : Pair} {x : Text}, o.name r = some x → x = o.physicalKey r.cacheKey := by
    intro r x hr
    simp only [Config.name, ho] at hr
    split at hr
    · simpa using hr.symm
    · cases hr
  intro he
  exact hne (physicalKey_injective o hp hq (by simp [hs]) (by rw [← hkey hm, ← hkey hn, he]))

/-- **Key mapping.** Two pairs that the driver accepts, of one bucket if it is stripped, have
different object names exactly when `Apart`. -/
theorem mapping_injective_iff (o : Config) {p q : Pair} {m n : Text} (hp : p.Valid) (hq : q.Valid)
    (hne : p ≠ q) (hb : o.strips = true → p.bucket = q.bucket) (hm : o.name p = some m)
    (hn : o.name q = some n) :
    (m ≠ n ∧ ∀ (x : Option Bytes) (objs : Text → Option Bytes),
      o.read q (o.write p x objs) = o.read q objs) ↔
      o.Apart p q := by
  have hframe : m ≠ n → ∀ (x : Option Bytes)
      (objs : Text → Option Bytes), o.read q (o.write p x objs) = o.read q objs := by
    intro h x objs
    simp [Config.read, Config.write, hm, hn, Ne.symm h]
  rw [and_iff_left_of_imp hframe]
  unfold Config.Apart
  cases ho : o.target with
  | s3 c =>
    have hiff := s3_name_eq_iff c ho hp hq hb hm hn hne
    simp only [ne_eq, hiff, not_and]
  | http b =>
    have hiff := http_name_eq_iff b ho hp hq
    rw [hm, hn, Option.some.injEq] at hiff
    simp only [ne_eq, hiff, not_and]
    by_cases hs : o.strips = false
    · by_cases hbk : p.bucket = q.bucket <;> simp [hs, hbk]
    · simp [hs]
  | filesystem => simp [filesystem_name_ne ho hp hq hm hn hne]

/-! ## Samples -/

def sampleClient : S3Client := ⟨"https".toList, "s3.local".toList, "data".toList, true⟩

def sampleS3 : Config := ⟨.s3 sampleClient, [], true⟩

def sampleBase : HttpBase := ⟨"http://files.local".toList, [], [], [], by decide⟩

def sampleHttp : Config := ⟨.http sampleBase, [], false⟩

theorem mapping_injective_sample : sampleClient.url ['x'] ≠ sampleClient.url ['y'] ∧
    ∀ (x : Option Bytes) (objs : Text → Option Bytes),
      sampleS3.read ⟨['b'], ['y']⟩ (sampleS3.write ⟨['b'], ['x']⟩ x objs) =
      sampleS3.read ⟨['b'], ['y']⟩ objs :=
  (mapping_injective_iff sampleS3 (p := ⟨['b'], ['x']⟩)
    (q := ⟨['b'], ['y']⟩) ⟨by decide, by decide, by decide⟩
    ⟨by decide, by decide, by decide⟩ (by decide) (fun _ => rfl) rfl rfl).2 fun _ _ => by decide

/-- `a/b` and `a//b` are one object of an HTTP origin; `x` and `/x` are one of an S3 origin whose
bucket is stripped. -/
theorem mapping_collides : ¬ ∃ o ∈ [sampleHttp, sampleS3], ∀ (p q : Pair) (m n : Text), p.Valid →
    q.Valid → p ≠ q →
    (o.strips = true → p.bucket = q.bucket) → o.name p = some m → o.name q = some n → m ≠ n := by
  rintro ⟨o, ho, h⟩
  simp only [mem_cons, not_mem_nil, or_false] at ho
  rcases ho with rfl | rfl
  · have heq : sampleHttp.name ⟨['l'], "a//b".toList⟩ = sampleHttp.name ⟨['l'], "a/b".toList⟩ := by
      simp only [Config.name, sampleHttp, Option.some.injEq, urlFor_eq_iff]
      decide
    exact h ⟨['l'], "a//b".toList⟩ ⟨['l'], "a/b".toList⟩ _ _ ⟨by decide, by decide, by decide⟩
      ⟨by decide, by decide, by decide⟩ (by decide) (by decide) heq rfl rfl
  · exact h ⟨['l'], "/x".toList⟩ ⟨['l'], "x".toList⟩ _ _ ⟨by decide, by decide, by decide⟩
      ⟨by decide, by decide, by decide⟩ (by decide) (fun _ => rfl) rfl rfl rfl

end Pgvs3.Origin
