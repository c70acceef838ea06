import Pgvs3.Data.DotSegments
import Pgvs3.Data.Utf8
import Pgvs3.Origin.Keys
/-!
# Where the requests to an HTTP origin go

`httpBucket.urlFor` (`objcache/origin.go:671-687`) appends the segments of the physical key to the
path of the base URL. It drops empty segments and escapes the rest; but `.` and `..` are segments
like others, and who reads the URL removes them (`pathPlace`). A key that climbs out of its bucket's
directory has to come back through the same names and go on (`Stays`).
-/

namespace Pgvs3.Origin

open List Data

/-- Escapes of unreserved characters are decoded. -/
def decodeUnreserved : Text → Text
  | '%' :: h :: l :: s =>
    match unhex h, unhex l with
    | some a, some b =>
      if unreserved (UInt8.ofNat (a * 16 + b)) then Char.ofNat (a * 16 + b) ::
        decodeUnreserved s else '%' :: h :: l :: decodeUnreserved s
    | _, _ => '%' :: decodeUnreserved (h :: l :: s)
  | c :: s => c :: decodeUnreserved s
  | [] => []

/-- What the path of a URL names: the bytes of its segments, after the dot segments have been
removed. -/
def pathPlace (path : Text) : List (Option Bytes) :=
  (stripEnd (removeDots ((path.splitOn '/').tail.map decodeUnreserved))).map unescape

/-- The directory with these names below the base URL. -/
def HttpBase.root (b : HttpBase) (names : List Text) : List (Option Bytes) :=
  pathPlace (trimRightSlashes b.written ++ names.flatMap fun m => '/' :: escapedPath m)

/-- The path of a base URL with a host is empty or begins with a slash. -/
def HttpBase.Rooted (b : HttpBase) : Prop := b.path = [] ∨ b.path.head? = some '/'

def Config.prefixNames (o : Config) : List Text := segments (newOriginPrefix o.configPrefix)

/-- The request goes to the base URL's host, strictly below its path and the prefix, and below the
directory of the bucket where there is one. -/
def Confined (o : Config) (b : HttpBase) (p : Pair) : Prop :=
  ∃ path, o.name p = some (b.site ++ path ++ b.tail) ∧ path.head? = some '/' ∧
    Below (b.root o.prefixNames) (pathPlace path) ∧
    (o.strips = false → Below (b.root (o.prefixNames ++ [p.bucket])) (pathPlace path))

def Config.dirNames (o : Config) (p : Pair) : List Text :=
  o.prefixNames ++ if o.strips then [] else [p.bucket]

/-- Where the code starts: at the decoded path of the base, and then the prefix and the bucket. -/
def Config.start (o : Config) (b : HttpBase) (p : Pair) : List Text :=
  walk [] (((trimRightSlashes b.path).splitOn '/').tail ++ o.dirNames p)

def Config.landing (o : Config) (b : HttpBase) (p : Pair) : List (Option Bytes) :=
  (stripEnd (above (o.start b p) (climb (segments p.key)))).map fun m => some (utf8 m)

/-- There is a name to append, and the way up and down from the start ends strictly below the
configured directories. -/
def Lands (o : Config) (b : HttpBase) (p : Pair) : Prop :=
  o.dirNames p ++ segments p.key ≠ [] ∧ Below (b.root o.prefixNames) (o.landing b p) ∧
    (o.strips = false → Below (b.root (o.prefixNames ++ [p.bucket])) (o.landing b p))

/-- The base is written as its path is escaped, without an encoded slash, and the bucket's directory
is not the one above. -/
def Ordinary (o : Config) (b : HttpBase) (p : Pair) : Prop :=
  b.written = escapedPath b.path ∧ (o.strips = false → p.bucket ≠ ['.', '.'])

instance (o : Config) (b : HttpBase) (p : Pair) : Decidable (Ordinary o b p) :=
  inferInstanceAs (Decidable (_ ∧ _))

/-- The key climbs so many levels and then goes down: the names that it has left are a proper
beginning of the way down. Where the base is written in another way or the bucket is `..`, the end
of the way is compared with the configured directories. -/
def Stays (o : Config) (b : HttpBase) (p : Pair) : Prop :=
  if Ordinary o b p then
    Below ((stripEnd (o.start b p)).drop ((o.start b p).length - (climb (segments p.key)).1))
      (climb (segments p.key)).2
  else Lands o b p

/-! ## Escaped paths -/

/-- The bytes that `escapedPath` keeps. -/
def pathByte (b : UInt8) : Bool := unreserved b || b ∈ [36, 38, 43, 44, 47, 58, 59, 61, 64]

variable (s : Text)

theorem utf8_eq : utf8 s = encode s := by
  simp [utf8, encode, String.ofList, List.utf8Encode]

theorem utf8_append (s t : Text) : utf8 (s ++ t) = utf8 s ++ utf8 t := by
  simp only [utf8_eq, encode_append]

theorem slash_not_mem_utf8 {s : Text} (hs : '/' ∉ s) : (47 : UInt8) ∉ utf8 s := by
  rw [utf8_eq]
  intro hmem
  obtain ⟨c, hc, hval⟩ := mem_of_ascii_mem_encode (by decide) hmem
  have hslash : c = '/' := Char.ext (UInt32.toNat_inj.1 hval)
  exact hs (hslash ▸ hc)

theorem escapedPath_append (s t : Text) :
    escapedPath (s ++ t) = escapedPath s ++ escapedPath t := by
  simp only [escapedPath, utf8_append, escape, flatMap_append]

theorem escapedPath_slash : escapedPath ('/' :: s) = '/' :: escapedPath s :=
  escapedPath_append ['/'] s

theorem slash_not_mem_escapedPath {s : Text} (hs : '/' ∉ s) : '/' ∉ escapedPath s := by
  intro hmem
  obtain ⟨b, hb, hc⟩ := mem_flatMap.1 hmem
  have hno : ∀ n < 256, '/' ∈ escapeByte pathByte (UInt8.ofNat n) → UInt8.ofNat n = 47 := by
    decide +kernel
  have h47 := hno b.toNat b.toNat_lt
  rw [UInt8.ofNat_toNat] at h47
  exact slash_not_mem_utf8 hs (h47 hc ▸ hb)

theorem escapedPath_intercalate (ss : List Text) :
    escapedPath (['/'].intercalate ss) = ['/'].intercalate (ss.map escapedPath) := by
  induction ss with
  | nil => rfl
  | cons s ss ih =>
    cases ss with
    | nil => simp [List.intercalate]
    | cons t ss =>
      simp only [map_cons, List.intercalate, intersperse_cons_cons, flatten_cons] at ih ⊢
      rw [escapedPath_append, singleton_append, escapedPath_slash, ih]
      rfl

theorem splitOn_escapedPath :
    (escapedPath s).splitOn '/' = (s.splitOn '/').map escapedPath := by
  have hs : ['/'].intercalate (s.splitOn '/') = s := intercalate_splitOn '/'
  conv_lhs => rw [← hs, escapedPath_intercalate]
  refine splitOn_intercalate '/' (fun l hl => ?_) (by simp [splitOn_ne_nil])
  obtain ⟨m, hm, rfl⟩ := mem_map.1 hl
  exact slash_not_mem_escapedPath (not_mem_of_mem_splitOn hm)

theorem unescape_escapedPath : unescape (escapedPath s) = some (utf8 s) :=
  unescape_escape (by decide) _

theorem escapedPath_injective {s t : Text} (h : escapedPath s = escapedPath t) : s = t :=
  escape_injective (by decide) h

theorem escapedPath_eq_iff {t : Text} (ht : escapedPath t = t) (s : Text) :
    escapedPath s = t ↔ s = t :=
  ⟨fun h => escapedPath_injective (h.trans ht.symm), fun h => h ▸ ht⟩

theorem escapedPath_keepsDots : KeepsDots escapedPath :=
  ⟨escapedPath_eq_iff (by decide), escapedPath_eq_iff (by decide), escapedPath_eq_iff (by decide)⟩

theorem decodeUnreserved_escapeByte (b : UInt8) (s : Text) :
    decodeUnreserved (escapeByte pathByte b ++ s) =
      escapeByte pathByte b ++ decodeUnreserved s := by
  have hb : b.toNat < 256 := b.toNat_lt
  unfold escapeByte
  split
  · next hkeep =>
    have hne : Char.ofNat b.toNat ≠ '%' := by
      intro he
      have h37 : b.toNat = 37 := by
        rw [← toNat_ofNat_byte hb, he]
        decide
      have hb37 : b = 37 := UInt8.toNat_inj.1 h37
      rw [hb37] at hkeep
      exact absurd hkeep (by decide)
    rw [singleton_append, singleton_append, decodeUnreserved]
    rintro h l t he -
    exact hne he
  · next hkeep =>
    have hval : UInt8.ofNat (b.toNat / 16 * 16 + b.toNat % 16) = b := by
      rw [Nat.div_add_mod']
      simp
    have hres : unreserved b = false := by
      cases hu : unreserved b with
      | false => rfl
      | true => exact absurd (show pathByte b = true by rw [pathByte, hu, Bool.true_or]) hkeep
    simp only [cons_append, nil_append, decodeUnreserved,
      unhex_hexDigit _ (by omega : b.toNat / 16 < 16),
      unhex_hexDigit _ (by omega : b.toNat % 16 < 16), hval, hres]
    rfl

theorem decodeUnreserved_escapedPath :
    decodeUnreserved (escapedPath s) = escapedPath s := by
  have hall : ∀ bs : Bytes, decodeUnreserved (escape pathByte bs) = escape pathByte bs := by
    intro bs
    induction bs with
    | nil => rfl
    | cons b bs ih =>
      have hcons : escape pathByte (b :: bs) = escapeByte pathByte b ++ escape pathByte bs := rfl
      rw [hcons, decodeUnreserved_escapeByte, ih]
  exact hall (utf8 s)

/-! ## Where a URL leads -/

theorem pathPlace_escapedPath :
    pathPlace (escapedPath s) = (stripEnd (walk [] (s.splitOn '/').tail)).map fun m =>
      some (utf8 m) := by
  have hdecode : (s.splitOn '/').tail.map (decodeUnreserved ∘ escapedPath) =
      (s.splitOn '/').tail.map escapedPath :=
    map_congr_left fun m _ => decodeUnreserved_escapedPath m
  have hwalk := walk_map escapedPath_keepsDots [] (s.splitOn '/').tail
  rw [map_nil] at hwalk
  rw [pathPlace, splitOn_escapedPath, ← map_tail, List.map_map, hdecode, stripEnd_removeDots, hwalk,
    stripEnd_map escapedPath_keepsDots, List.map_map]
  exact map_congr_left fun m _ => unescape_escapedPath m

theorem splitOn_keyPath (b : HttpBase) {s : Text} (hs : segments s ≠ []) :
    ((b.keyPath (segments s)).splitOn '/').tail =
      ((trimRightSlashes b.path).splitOn '/').tail ++ segments s := by
  rw [HttpBase.keyPath, splitOn_append_cons_self, joinSegments,
    splitOn_intercalate '/' (fun l hl => (mem_segments hl).2) hs,
    tail_append_of_ne_nil (splitOn_ne_nil _ _)]

theorem pathPlace_append_slashes (n : Nat) :
    pathPlace (s ++ replicate n '/') = pathPlace s := by
  induction n with
  | zero => rw [replicate_zero, append_nil]
  | succ n ih =>
    have hsplit : ((s ++ replicate n '/' ++ '/' :: []).splitOn '/').tail =
        ((s ++ replicate n '/').splitOn '/').tail ++ [[]] := by
      rw [splitOn_append_cons_self, tail_append_of_ne_nil (splitOn_ne_nil _ _)]
      rfl
    rw [← ih, replicate_succ', ← append_assoc]
    unfold pathPlace
    rw [hsplit, map_append]
    exact congrArg _ (stripEnd_removeDots_concat_nil _)

theorem pathPlace_written (b : HttpBase) : pathPlace b.written = b.root [] := by
  obtain ⟨n, hn⟩ := trimRightSlashes_split b.written
  rw [HttpBase.root, flatMap_nil, append_nil]
  nth_rewrite 1 [hn]
  exact pathPlace_append_slashes _ n

/-! ## The theorem -/

section

variable {o : Config} {b : HttpBase} {p : Pair}

theorem segments_physicalKey (hp : p.Valid) :
    segments (o.physicalKey p.cacheKey) = o.dirNames p ++ segments p.key := by
  rw [physicalKey_cacheKey o hp, segments_prefixKey, Config.dirNames, Config.prefixNames,
    append_assoc]
  congr 1
  cases o.strips with
  | false => exact segments_cacheKey hp
  | true => rfl

theorem head_keyPath (hb : b.Rooted) (ss : List Text) :
    (escapedPath (b.keyPath ss)).head? = some '/' := by
  have hhead : (b.keyPath ss).head? = some '/' := by
    obtain ⟨n, hn⟩ := trimRightSlashes_split b.path
    rw [HttpBase.keyPath]
    cases htrim : trimRightSlashes b.path with
    | nil => rfl
    | cons c t =>
      rw [htrim, cons_append] at hn
      rcases hb with hnil | hc
      · rw [hnil] at hn
        cases hn
      · rw [hn] at hc
        exact hc
  cases hk : b.keyPath ss with
  | nil =>
    rw [hk] at hhead
    cases hhead
  | cons c t =>
    rw [hk] at hhead
    cases hhead
    rw [escapedPath_slash]
    rfl

theorem name_http (ho : o.target = .http b) (hp : p.Valid) :
    o.name p = some (b.site ++ (if o.dirNames p ++ segments p.key = [] then b.written
      else escapedPath (b.keyPath (o.dirNames p ++ segments p.key))) ++ b.tail) := by
  simp only [Config.name, ho, urlFor, segments_trimOneSlash, segments_physicalKey hp,
    Option.some.injEq]
  split <;> rfl

theorem pathPlace_name (hp : p.Valid) (hne : o.dirNames p ++ segments p.key ≠ []) :
    pathPlace (escapedPath (b.keyPath (o.dirNames p ++ segments p.key))) = o.landing b p := by
  rw [← segments_physicalKey hp] at hne ⊢
  rw [pathPlace_escapedPath, splitOn_keyPath b hne, segments_physicalKey hp, ← append_assoc,
    walk_append, walk_eq]
  rfl

theorem confined_iff_lands (ho : o.target = .http b) (hb : b.Rooted) (hp : p.Valid) :
    Confined o b p ↔ Lands o b p := by
  have hname := name_http ho hp
  by_cases hne : o.dirNames p ++ segments p.key = []
  · -- no name at all: the request goes to the base itself
    rw [if_pos hne] at hname
    refine iff_of_false ?_ fun hst => hst.1 hne
    rintro ⟨path, hpath, -, hbelow, -⟩
    have hw : b.site ++ path ++ b.tail = b.site ++ b.written ++ b.tail :=
      Option.some.inj (hpath.symm.trans hname)
    have hnames : o.prefixNames = [] := append_eq_nil_iff.1 (append_eq_nil_iff.1 hne).1 |>.1
    rw [append_cancel_left (append_cancel_right hw), hnames, pathPlace_written] at hbelow
    exact not_below_self _ hbelow
  · rw [if_neg hne] at hname
    have hplace := pathPlace_name (b := b) hp hne
    constructor
    · rintro ⟨path, hpath, -, hbelow, hbucket⟩
      have hw := Option.some.inj (hpath.symm.trans hname)
      rw [append_cancel_left (append_cancel_right hw), hplace] at hbelow hbucket
      exact ⟨hne, hbelow, hbucket⟩
    · rintro ⟨-, hbelow, hbucket⟩
      rw [← hplace] at hbelow hbucket
      exact ⟨_, hname, head_keyPath hb _, hbelow, hbucket⟩

theorem trimRightSlashes_escapedPath (s : Text) :
    trimRightSlashes (escapedPath s) = escapedPath (trimRightSlashes s) := by
  have hslashes : ∀ n, escapedPath (replicate n '/') = replicate n '/' := by
    intro n
    induction n with
    | zero => rfl
    | succ n ih => rw [replicate_succ, escapedPath_slash, ih]
  obtain ⟨n, hn⟩ := trimRightSlashes_split s
  have hlast : ∀ hne, ¬ isSlash ((trimRightSlashes s).getLast hne) := rdropWhile_last_not isSlash s
  generalize trimRightSlashes s = t at hn hlast
  rw [hn, escapedPath_append, hslashes]
  refine (rdropWhile_append_replicate (by decide) _ n).trans (rdropWhile_eq_self_iff.2 ?_)
  rcases t.eq_nil_or_concat with rfl | ⟨t, d, rfl⟩
  · exact fun hne => absurd rfl hne
  · -- the escape of the last letter has no slash in it
    rw [concat_eq_append, escapedPath_append]
    intro hne hslash
    have hd : d ≠ '/' := fun hd => hlast (by simp) (by simp [isSlash, hd])
    have hne' : escapedPath [d] ≠ [] := (escapedPath_keepsDots.nil [d]).not.2 (cons_ne_nil d [])
    rw [getLast_append_of_ne_nil _ hne'] at hslash
    exact slash_not_mem_escapedPath (by simpa using hd.symm) (beq_iff_eq.1 hslash ▸ getLast_mem hne')

theorem splitOn_names (t : Text) {names : List Text} (hnames : ∀ m ∈ names, '/' ∉ m) :
    ((t ++ names.flatMap fun m => '/' :: m).splitOn '/').tail = (t.splitOn '/').tail ++ names := by
  induction names generalizing t with
  | nil => simp
  | cons m ms ih =>
    obtain ⟨hm, hms⟩ := forall_mem_cons.1 hnames
    rw [flatMap_cons, ← append_assoc, ih _ hms, splitOn_append_cons_self,
      tail_append_of_ne_nil (splitOn_ne_nil _ _), splitOn_eq_singleton hm, append_assoc,
      singleton_append]

/-- A base that is written as its path is escaped leads where the path does. -/
theorem root_eq (hw : b.written = escapedPath b.path) {names : List Text}
    (hnames : ∀ m ∈ names, '/' ∉ m) :
    b.root names = (stripEnd (walk [] (((trimRightSlashes b.path).splitOn '/').tail ++ names))).map
      fun m => some (utf8 m) := by
  have hescape : (names.flatMap fun m => '/' :: escapedPath m) =
      escapedPath (names.flatMap fun m => '/' :: m) := by
    clear hnames
    induction names with
    | nil => rfl
    | cons m ms ih =>
      rw [flatMap_cons, flatMap_cons, ih, cons_append, cons_append, escapedPath_slash,
      escapedPath_append]
  rw [HttpBase.root, hw, trimRightSlashes_escapedPath, hescape, ← escapedPath_append,
    pathPlace_escapedPath, splitOn_names _ hnames]

theorem below_map_iff {x y : List Text} :
    Below (x.map fun m => some (utf8 m)) (y.map fun m => some (utf8 m)) ↔ Below x y := by
  have hinj : Function.Injective fun m :
    Text => some (utf8 m) := fun _ _ h => utf8_injective (Option.some.inj h)
  rw [Below, Below, prefix_map_iff_of_injective hinj, Ne, (map_injective_iff.2 hinj).eq_iff]

theorem lands_iff (hp : p.Valid) (h : Ordinary o b p) : Lands o b p ↔
    Below ((stripEnd (o.start b p)).drop ((o.start b p).length - (climb (segments p.key)).1))
      (climb (segments p.key)).2 := by
  have hdown : ∀ s ∈ (climb (segments p.key)).2, s ≠
    [] := fun s hs => (mem_segments (mem_climb hs)).1
  have hslash : ∀ m ∈ o.prefixNames, '/' ∉ m := fun m hm => (mem_segments hm).2
  have hbucket : ∀ m ∈ o.prefixNames ++ [p.bucket], '/' ∉ m := fun m hm =>
    (mem_append.1 hm).elim (hslash m) fun he => mem_singleton.1 he ▸ hp.bucket_slash
  rw [← below_above_iff hdown, ← below_map_iff]
  -- without a segment the way ends where it starts
  have hnames : Below ((stripEnd (o.start b p)).map fun m => some (utf8 m)) (o.landing b p) →
      o.dirNames p ++ segments p.key ≠ [] := by
    intro hl hnil
    rw [Config.landing, (append_eq_nil_iff.1 hnil).2] at hl
    simp only [climb, foldl_nil, above, Nat.sub_zero, take_length, append_nil] at hl
    exact not_below_self _ hl
  cases hs : o.strips with
  | true =>
    have hroot : b.root o.prefixNames = (stripEnd (o.start b p)).map fun m => some (utf8 m) := by
      rw [root_eq h.1 hslash, Config.start, Config.dirNames, hs, if_pos rfl, append_nil]
    rw [Lands, hroot, hs]
    exact ⟨fun hl => hl.2.1, fun hl => ⟨hnames hl, hl, fun hf => by cases hf⟩⟩
  | false =>
    have hroot : b.root (o.prefixNames ++ [p.bucket]) =
        (stripEnd (o.start b p)).map fun m => some (utf8 m) := by
      rw [root_eq h.1 hbucket, Config.start, Config.dirNames, hs]
      rfl
    rw [Lands, hroot, root_eq h.1 hslash, hs]
    refine ⟨fun hl => hl.2.2 rfl, fun hl =>
      ⟨hnames hl, hl.of_prefix (IsPrefix.map _ ?_), fun _ => hl⟩⟩
    have hstart : o.start b p = enter (walk []
        (((trimRightSlashes b.path).splitOn '/').tail ++ o.prefixNames)) p.bucket := by
      rw [Config.start, Config.dirNames, hs, if_neg (by decide), ← append_assoc, walk_append]
      rfl
    rw [hstart, enter, if_neg (h.2 hs)]
    split
    · exact prefix_rfl
    · rw [stripEnd_append (by simp) (by simpa using hp.bucket_ne)]
      exact ( rdropWhile_prefix _ _).trans (prefix_append _ _)

/-- A request stays where it was configured to go exactly if the way that its key names does. -/
theorem confined_iff (ho : o.target = .http b) (hb : b.Rooted) (hp : p.Valid) :
    Confined o b p ↔ Stays o b p := by
  rw [confined_iff_lands ho hb hp, Stays]
  split
  · next h => exact lands_iff hp h
  · rfl

end

/-- An origin that serves `/public` of a host, with the buckets as directories. -/
def publicBase : HttpBase :=
  ⟨"http://files.local".toList, "/public".toList, "/public".toList, [], by decide⟩

def publicHttp : Config := ⟨.http publicBase, "data".toList, false⟩

/-- Out of the bucket's directory, back into it and on. -/
theorem nested_key_confined :
    Confined publicHttp publicBase ⟨"docs".toList, "a/../../docs//c".toList⟩ := by
  refine (confined_iff rfl (.inr rfl) ⟨by decide, by decide, by decide⟩).2 ?_
  rw [Stays, if_pos (by decide +kernel)]
  decide +kernel

/-- The request for `../../../secret` goes to `/secret`. -/
theorem dots_escape : ¬ ∀ (o : Config) (b : HttpBase) (p : Pair), o.target = .http b → b.Rooted →
    p.Valid → Confined o b p := by
  intro hclaim
  obtain ⟨path, hname, -, hbelow, -⟩ :=
    hclaim publicHttp publicBase ⟨"docs".toList, "../../../secret".toList⟩ rfl (.inr rfl)
    ⟨by decide, by decide, by decide⟩
  have hpath : path = "/public/data/docs/../../../secret".toList := by
    have hurl : publicHttp.name ⟨"docs".toList, "../../../secret".toList⟩ =
        some (publicBase.site ++ "/public/data/docs/../../../secret".toList ++
          publicBase.tail) := by decide +kernel
    exact append_cancel_left (append_cancel_right (Option.some.inj (hname.symm.trans hurl)))
  subst hpath
  revert hbelow
  decide +kernel

end Pgvs3.Origin
