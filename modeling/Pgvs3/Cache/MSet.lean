import Pgvs3.Codec.Block
import Pgvs3.Data.Assoc
/-!
# MSET

`Row` and `Space` are the tables of a cache schema (`schema.sql:293-414`); `queueGarbage` and
`publishValue` are functions of it (`421-516`), called without options.

One value above the inline limit makes `MSet` write key by key, each in a transaction of its own;
else one statement for all keys sees the tables as they were before it. A call fails in one of its
transactions, before the commit or after it when only the answer is lost. The statement leaves
`origin_metadata` alone, where `publish_value` deletes the key's row, and writes NULL for an empty
`origin_etag`, which is read with `COALESCE` everywhere (`Row.read`).
-/

namespace Pgvs3.Cache

open Data (assign erase)

/-- Ids come from a sequence that starts at one. -/
abbrev FileId := ℕ+

instance fileStep : NeZero (0 + 1) := inferInstance

abbrev Key := Bytes

/-- Where the value is, with what the rows of its files hold (`store/cache.go:825-830`). -/
inductive RowBody where
  | inline (data : Bytes)
  | file (id : FileId) (content : Bytes)
  | parts (first : FileId) (rest : List FileId) (ends : List Nat) (content : Bytes)
deriving DecidableEq

def RowBody.files : RowBody → List FileId
  | .inline _ => []
  | .file id _ => [id]
  | .parts first rest _ _ => first :: rest

structure Row where
  body : RowBody
  size : Nat
  sha256 : Bytes
  etag : Bytes
  userMetadata : List Bytes
  contentType : Bytes
  contentEncoding : Bytes
  originModified : Option Nat
  checksumName : Option Bytes
  checksumValue : Option Bytes
  checksumType : Option Bytes
  createdAt : Nat
  expiresAt : Option Nat
  originETag : Option Bytes
deriving DecidableEq

/-- The columns as `metadataColumns` reads them. -/
def Row.read (r : Row) : Row := { r with originETag := some (r.originETag.getD []) }

/-- `schema.sql:361-364`. -/
structure Space where
  objects : List (Key × Row)
  /-- `object_part_checksums`: a key with the rest of the row. -/
  partChecksums : List (Key × Bytes)
  originMetadata : List (Key × Bytes)
  /-- The files in `upload_parts`. -/
  uploadParts : List FileId
  garbage : List FileId
  nextFile : FileId

def Space.files (st : Space) (k : Key) : List FileId :=
  ((st.objects.lookup k).map (·.body.files)).getD []

def Space.refers (st : Space) (p : Key → Bool) (f : FileId) : Bool :=
  st.objects.any fun e => p e.1 && (st.files e.1).contains f

/-- `schema.sql:423-432`. -/
def Space.queueGarbage (st : Space) (files : List FileId) : Space :=
  { st with
    garbage := st.garbage ++ files.dedup.filter fun f => f ∉ st.garbage ∧
      st.refers (fun _ => true) f = false ∧ f ∉ st.uploadParts }

def inlineMax : Nat := 8120

/-- `store/cache.go:832-841`. -/
structure Encoder where
  sha256 : Bytes → Bytes
  md5 : Bytes → Bytes
  z : Codec.Zstd

def octetStream : Bytes := "application/octet-stream".toList.map fun c => .ofNat c.toNat

def Encoder.row (e : Encoder) (now : Nat) (originETag : Option Bytes) (v : Bytes)
    (body : RowBody) : Row where
  body
  size := v.length
  sha256 := e.sha256 v
  etag := e.md5 v
  userMetadata := []
  contentType := octetStream
  contentEncoding := []
  originModified := none
  checksumName := none
  checksumValue := none
  checksumType := none
  createdAt := now
  expiresAt := none
  originETag

def inlineRow (e : Encoder) (now : Nat) (originETag : Option Bytes) (v : Bytes) : Row :=
  e.row now originETag v (.inline (Codec.compressBlock e.z v))

def publishValue (st : Space) (k : Key) (row : Row) : Space :=
  let st' := { st with
    objects := assign st.objects k row
    partChecksums := erase st.partChecksums k
    originMetadata := erase st.originMetadata k }
  st'.queueGarbage (st.files k)

def set (e : Encoder) (now : Nat) (st : Space) (kv : Key × Bytes) : Space :=
  if kv.2.length ≤ inlineMax then publishValue st kv.1 (inlineRow e now (some []) kv.2)
  else publishValue { st with nextFile := st.nextFile + 1 } kv.1
    (e.row now (some []) kv.2 (.file st.nextFile kv.2))

def setAll (e : Encoder) (now : Nat) (st : Space) (kvs : List (Key × Bytes)) : Space :=
  kvs.foldl (set e now) st

/-- The last value of a key that comes again, in the place of its first
(`store/cache.go:851-877`). -/
def encodeCacheBatch (kvs : List (Key × Bytes)) : List (Key × Bytes) :=
  kvs.foldl (fun batch kv =>
    if (batch.lookup kv.1).isSome then batch.map fun e => if e.1 = kv.1 then kv else e
      else batch ++ [kv]) []

/-- Everything in it reads `st` (`store/cache.go:879-928`). -/
def cacheMSet (e : Encoder) (now : Nat) (st : Space) (batch : List (Key × Bytes)) : Space :=
  let keys := batch.map Prod.fst
  { st with
    objects := batch.foldl (fun m kv => assign m kv.1 (inlineRow e now none kv.2)) st.objects
    partChecksums := st.partChecksums.filter fun c => c.1 ∉ keys
    garbage := st.garbage ++ (keys.flatMap st.files).dedup.filter fun f =>
      f ∉ st.garbage ∧ st.refers (fun k => k ∉ keys) f = false ∧ f ∉ st.uploadParts }

/-- Transactions one after the other. The one with the number `fail.1` fails; with `fail.2` it has
committed before. -/
def runTxs (txs : List (Space → Space)) (fail : Option (Nat × Bool)) (st : Space) : Bool × Space :=
  match fail with
  | none => (true, txs.foldl (fun s f => f s) st)
  | some (i, committed) =>
    if i < txs.length
      then (false, (txs.take (if committed then i + 1 else i)).foldl (fun s f => f s) st)
    else (true, txs.foldl (fun s f => f s) st)

def large (kvs : List (Key × Bytes)) : Bool := kvs.any fun kv => inlineMax < kv.2.length

/-- `store/cache.go:794-823`. -/
def mset (e : Encoder) (now : Nat) (kvs : List (Key × Bytes)) (fail : Option (Nat × Bool))
    (st : Space) : Bool × Space :=
  if kvs = [] then (true, st)
  else if large kvs then runTxs (kvs.map fun kv s => set e now s kv) fail st
  else runTxs [fun s => cacheMSet e now s (encodeCacheBatch kvs)] fail st

/-! ## What it is for -/

/-- What a reader gets, unless the row has expired. -/
def Space.value (e : Encoder) (now : Nat) (st : Space) (k : Key) : Option Bytes :=
  (st.objects.lookup k).bind fun r =>
    if r.expiresAt.all (now < ·) then
      match r.body with
      | .inline data => (Codec.decompressBlock e.z data r.size).toOption
      | .file _ content => some content
      | .parts _ _ _ content => some content
    else none

/-- The complete stored state of each key, and the garbage. -/
structure Same (a b : Space) : Prop where
  row : ∀ k, (a.objects.lookup k).map Row.read = (b.objects.lookup k).map Row.read
  partChecksums : ∀ k, a.partChecksums.filter (·.1 = k) = b.partChecksums.filter (·.1 = k)
  originMetadata : ∀ k, a.originMetadata.lookup k = b.originMetadata.lookup k
  garbage : ∀ f, f ∈ a.garbage ↔ f ∈ b.garbage

/-- All keys have their last value, or there is an error and nothing has changed. What a success
leaves is what SETs leave. -/
structure Atomic (e : Encoder) (now : Nat) (kvs : List (Key × Bytes)) (fail : Option (Nat × Bool))
    (st : Space) : Prop where
  whole : (∀ k v, Data.last kvs k = some v → (mset e now kvs fail st).2.value e now k = some v) ∨
    ((mset e now kvs fail st).1 = false ∧ Same (mset e now kvs fail st).2 st)
  same : (mset e now kvs fail st).1 = true → Same (mset e now kvs fail st).2 (setAll e now st kvs)

/-- How many of `n` transactions have committed when one has failed. -/
def committed (n : Nat) : Option (Nat × Bool) → Option Nat
  | none => none
  | some (i, c) => if i < n then some (if c then i + 1 else i) else none

/-- The ids of files have been drawn from the sequence. -/
structure Space.Drawn (st : Space) : Prop where
  files : ∀ k, ∀ f ∈ st.files k, f < st.nextFile
  garbage : ∀ f ∈ st.garbage, f < st.nextFile
  uploadParts : ∀ f ∈ st.uploadParts, f < st.nextFile

/-- No value needs a file, and each key already has the row that its last SET writes, with nothing
in the tables beside it. -/
def Rewrites (e : Encoder) (now : Nat) (st : Space) (kvs : List (Key × Bytes)) : Prop :=
  (∀ kv ∈ kvs, kv.2.length ≤ inlineMax) ∧ ∀ k v, Data.last kvs k = some v →
    (st.objects.lookup k).map Row.read = some (inlineRow e now (some []) v) ∧
      st.partChecksums.filter (·.1 = k) = [] ∧ st.originMetadata.lookup k = none

/-- Key by key, the writes before the failure repeat what is stored (in particular there are none),
or every key that they leave out has its last value already. For all keys at once, there is a
failure or no key has a row in `origin_metadata`. -/
def Harmless (e : Encoder) (now : Nat) (kvs : List (Key × Bytes)) (fail : Option (Nat × Bool))
    (st : Space) : Prop :=
  if large kvs then
    ∀ j, committed kvs.length fail = some j → Rewrites e now st (kvs.take j) ∨
        ∀ k v, Data.last kvs k = some v → (Data.last (kvs.take j) k).or (st.value e now k) = some v
  else kvs = [] ∨ committed 1 fail ≠ none ∨ ∀ kv ∈ kvs, st.originMetadata.lookup kv.1 = none

end Pgvs3.Cache
