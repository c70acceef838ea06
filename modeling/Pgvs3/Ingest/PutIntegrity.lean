import Pgvs3.Ingest.Upload
/-!
# What an acknowledged PUT says about the object

The hashers see what the store gets, so every digest that `verify` compares is that of the content
(`put_ok`). What is not compared is in `Consistent`.
-/

namespace Pgvs3.Ingest

open Codec (Zstd ChunkRow)
open List Option

/-- A length the request declares for the content. -/
def PutRequest.Length (req : PutRequest) (n : Nat) : Prop :=
  decodedLength req.header = some n ∨ (req.streaming = false ∧ req.contentLength = some n)

def PutRequest.trailerLines (req : PutRequest) : List Bytes := req.header.values (ascii "x-amz-trailer")

/-- What the declared digests, the announced trailers, the declared length and the recorded checksum
say is true. -/
structure Intact (hash : Digest → Hash) (req : PutRequest) (content : Bytes) (ack : Acked) : Prop where
  header : ∀ d v, req.header.Declares d v → (hash d).digest content = v
  trailers : ∀ line ∈ req.trailerLines, ∀ d, Announced line d →
    trailerValues ack.trailers d ≠ [] ∧ ∀ v ∈ trailerValues ack.trailers d, (hash d).digest content = v
  length : ∀ n, req.Length n → content.length = n
  checksum : ∀ c, ack.object.checksum = some c → (hash c.1).digest content = c.2

/-- The line of `x-amz-trailer` that is read. -/
def PutRequest.trailerLine (req : PutRequest) : Bytes := req.header.get (ascii "x-amz-trailer")

/-- What nothing compares with the content. -/
structure Consistent (hash : Digest → Hash) (req : PutRequest) (content : Bytes) (trailers : List (Bytes × Bytes)) : Prop where
  /-- A digest both in the header and in a trailer is the same there. -/
  replaced : ∀ d v, req.header.Declares d v → Announced req.trailerLine d → trailerGet trailers d = v
  /-- A trailer that comes more than once is the same each time. -/
  repeated : ∀ d, Announced req.trailerLine d → ∀ v ∈ trailerValues trailers d, v = trailerGet trailers d
  /-- Trailers that only further lines of `x-amz-trailer` announce are right. -/
  later : ∀ line ∈ req.trailerLines, ∀ d, Announced line d → ¬ Announced req.trailerLine d →
    trailerValues trailers d ≠ [] ∧ ∀ v ∈ trailerValues trailers d, (hash d).digest content = v
  /-- A decoded length of a plain body is its `Content-Length`; without one, a decoded length of
  zero is true. -/
  decoded : req.streaming = false → ∀ n, decodedLength req.header = some n →
    (∀ m, req.contentLength = some m → m = n) ∧ (req.contentLength = none → n = 0 → content = [])

variable {hash : Digest → Hash} {run : Run} {fuel : Nat} {req : PutRequest} {ack : Acked} {content : Bytes}

/-! ## The stored bytes -/

theorem mapM_ok {α β ε : Type} {f : α → Except ε β} {g : α → β} {l : List α} (h : ∀ a ∈ l, f a = .ok (g a)) :
    l.mapM f = .ok (l.map g) := by
  induction l with
  | nil => rfl
  | cons a l ih =>
    rw [mapM_cons, h a mem_cons_self, ih fun b hb => h b (mem_cons_of_mem a hb)]
    rfl

variable {checksum : Option (Digest × Bytes)} {data : Bytes} {obj : StoredObject} {n : Nat} {c : Digest × Bytes} {d : Digest}
  {b : UploadBody hash}

theorem content_chunks {z : Zstd} {fileID : Int64} (hle : content.length ≤ Codec.RowFramer.limit) :
    StoredObject.content z ⟨.chunks (Codec.storedRows z fileID content), content.length, checksum⟩ = .ok content := by
  have hrow : ∀ r ∈ Codec.storedRows z fileID content,
      Codec.decodeRow z content.length r.no.toInt.toNat r.data = .ok (Codec.rowOf content r.no.toInt.toNat) := by
    intro r hr
    obtain ⟨i, hi, rfl⟩ := Codec.mem_storedRows.1 hr
    have hno : (Codec.storedRow z fileID i (Codec.rowOf content i)).no.toInt.toNat = i := by
      show (Int32.ofNat i).toInt.toNat = i
      rw [Codec.toInt_ofNat (Codec.row_lt hle hi)]
      rfl
    rw [hno]
    exact Codec.decodeRow_stored z hi
  have hrows : (Codec.storedRows z fileID content).map (fun r => Codec.rowOf content r.no.toInt.toNat) = cut Codec.rowBytes content := by
    refine ext_getElem? fun i => ?_
    rw [getElem?_map, Codec.storedRows, getElem?_mapIdx, getElem?_cut (by decide)]
    split
    · next hi =>
      show some (Codec.rowOf content (Int32.ofNat i).toInt.toNat) = _
      rw [Codec.toInt_ofNat (Codec.row_lt hle hi)]
      rfl
    · rfl
  show ((Codec.storedRows z fileID content).mapM fun r => Codec.decodeRow z content.length r.no.toInt.toNat r.data).map
    List.flatten = .ok content
  rw [mapM_ok hrow, hrows]
  exact congrArg Except.ok (flatten_cut (by decide) content)

theorem putInline_ok (h : putInline run checksum data = .ok obj) : obj.content run.z = .ok data ∧ obj.checksum = checksum := by
  unfold putInline at h
  split at h
  · cases h
    exact ⟨Codec.decompressBlock_compressBlock run.z data, rfl⟩
  · cases h

theorem finish_ok {want : Nat} {pushes : List Bytes} (h : finish run want checksum pushes = .ok obj) :
    obj.content run.z = .ok pushes.flatten ∧ obj.checksum = checksum ∧ (0 < want → pushes.flatten.length = want) := by
  unfold finish at h
  split at h
  · cases h
  · next rows hrows =>
    obtain ⟨bs, hframe, hcopy⟩ := bind_eq_some_iff.1 hrows
    have hlimit : pushes.flatten.length ≤ Codec.RowFramer.limit := by
      rw [Codec.frameFile_eq] at hframe
      split at hframe
      · assumption
      · cases hframe
    rw [Codec.copyRows_frameFile hframe] at hcopy
    cases hcopy
    dsimp only at h
    split at h
    · cases h
    · next hsize =>
      split at h
      · cases h
        refine ⟨content_chunks hlimit, rfl, fun hpos => ?_⟩
        by_contra hne
        exact hsize ⟨hpos, hne⟩
      · cases h

/-! ## The two paths -/

/-- A body has as many bytes as its size says, at most. -/
def Body.Sized (size : Option Nat) : Body → Prop
  | .plain src ending => ∀ n, size = some n → ending = .eof → src.rest.length = n
  | .chunked c => c.total = 0 ∧ c.decodedLen = size

theorem inline_all {b b' : Body} {more : Bytes} (hsized : b.Sized (some n)) (hdata : data.length = n)
    (hgave : b.Gave (data ++ more) b') (heof : ∀ src ending, b = .plain src ending → ending = .eof) : more = [] := by
  refine length_eq_zero_iff.1 ?_
  cases b with
  | plain src ending =>
    cases b' with
    | chunked c' => exact hgave.elim
    | plain src' ending' =>
      have hlen := hsized n rfl (heof src ending rfl)
      have hsplit := congrArg List.length hgave.1
      simp only [length_append] at hsplit
      omega
  | chunked c =>
    cases b' with
    | plain src' ending' => exact hgave.elim
    | chunked c' =>
      obtain ⟨hb, htotal, hlen⟩ := hgave
      have hfits := hb.fits n (hlen.trans hsized.2)
      rw [length_append] at htotal
      have hzero := hsized.1
      omega

theorem readInlineBody_ok {r r' : UploadReader hash} (hfits : r.body.Fits) (hsized : r.body.Sized (some n))
    (h : readInlineBody fuel n r = some (.ok data, r')) : Took r data r' ∧ data.length = n := by
  unfold readInlineBody at h
  split at h
  · cases h
  · cases h
  · next data' r₁ hfull =>
    obtain ⟨⟨res, r₂⟩, hrest, hpair⟩ := map_eq_some_iff.1 h
    cases res with
    | error e => cases hpair
    | ok outs =>
      cases hpair
      obtain ⟨bs, rfl, hlen, htook⟩ := readFull_took hfits hfull
      obtain ⟨htook', heof⟩ := copyBuffer_took (by decide) htook.body.fits hrest
      refine ⟨?_, hlen⟩
      have hall := htook.trans htook'
      have hnil : outs.flatten = [] := by
        refine inline_all hsized hlen hall.body fun src ending hb => ?_
        have hgave := htook.body
        rw [hb] at hgave
        cases hb₁ : r₁.body with
        | plain src₁ ending₁ =>
          rw [hb₁] at hgave
          exact hgave.2.symm.trans (heof src₁ ending₁ hb₁)
        | chunked c => rw [hb₁] at hgave; exact hgave.elim
      rwa [hnil, append_nil] at hall

/-- What an acknowledgement rests on. -/
structure Kept (hash : Digest → Hash) (run : Run) (b : UploadBody hash) (content : Bytes) (ack : Acked) : Prop where
  stored : ack.object.content run.z = .ok content
  verified : ∃ got checks, Verified b.integrity ack.trailers got checks ∧ (∀ d ∈ b.integrity.h, got d = (hash d).digest content) ∧
      ack.object.checksum = recorded (b.integrity.expectedChecksum run.first) checks
  size : ∀ n, b.size = some n → content.length = n
  expected : b.size = none → ∀ n, b.expectedSize = some n → 0 < n → content.length = n

structure Fresh (b : UploadBody hash) : Prop where
  fits : b.reader.body.Fits
  sized : b.reader.body.Sized b.size
  h : b.reader.h = b.integrity.h
  state : ∀ d, b.reader.state d = (hash d).init

theorem Fresh.sums (hb : Fresh b) {r : UploadReader hash} (h : Took b.reader content r) :
    ∀ d ∈ b.integrity.h, r.sums d = (hash d).digest content := by
  intro d hd
  rw [UploadReader.sums, h.state d (hb.h ▸ hd), hb.state, Hash.digest]

theorem putLocal_ok (hb : Fresh b) (h : putLocal run fuel req b = some (.ok ack)) : ∃ content, Kept hash run b content ack := by
  unfold putLocal at h
  dsimp only at h
  split at h
  · next hsmall =>
    obtain ⟨n, hn, -⟩ := (Option.any_eq_true ..).1 hsmall
    obtain ⟨⟨res, r⟩, hread, hok⟩ := map_eq_some_iff.1 h
    cases res with
    | error e => cases hok
    | ok data =>
      cases hv : b.integrity.verify run.second (r.body.trailers req) r.sums with
      | error e => simp [hv, Except.mapError, bind, Except.bind] at hok
      | ok checks =>
        simp only [hv, Except.mapError, bind, Except.bind] at hok
        split at hok
        · cases hok
        · next obj hobj =>
          cases hok
          obtain ⟨hcontent, hsum⟩ := putInline_ok hobj
          rw [hn, getD_some] at hread
          obtain ⟨htook, hlen⟩ := readInlineBody_ok hb.fits (hn ▸ hb.sized) hread
          refine ⟨data, hcontent, ⟨r.sums, checks, verify_ok hv, hb.sums htook, hsum⟩, fun m hm => ?_, fun hnone => ?_⟩
          · rw [hn] at hm
            cases hm
            exact hlen
          · rw [hn] at hnone
            cases hnone
  · next hlarge =>
    obtain ⟨⟨res, r⟩, hread, hok⟩ := map_eq_some_iff.1 h
    cases res with
    | error e => cases hok
    | ok pushes =>
      cases hv : b.integrity.verify run.second (r.body.trailers req) r.sums with
      | error e => simp [hv, Except.mapError, bind, Except.bind] at hok
      | ok checks =>
        simp only [hv, Except.mapError, bind, Except.bind] at hok
        split at hok
        · cases hok
        · next obj hobj =>
          cases hok
          obtain ⟨hcontent, hsum, hwant⟩ := finish_ok hobj
          obtain ⟨htook, -⟩ := copyBuffer_took (by decide) hb.fits hread
          refine ⟨pushes.flatten, hcontent, ⟨r.sums, checks, verify_ok hv, hb.sums htook, hsum⟩, fun n hn => ?_,
            fun hnone n hn hpos => ?_⟩
          · have hbig : Codec.maxInlineBytes < n := by
              by_contra hle
              exact hlarge ((Option.any_eq_true ..).2 ⟨n, hn, by simpa using hle⟩)
            rw [hn, getD_some] at hwant
            exact hwant (by omega)
          · rw [hnone, hn] at hwant
            exact hwant hpos

/-! ## The request -/

structure Prepared (req : PutRequest) (b : UploadBody hash) : Prop where
  fresh : Fresh b
  taken : Taken req.header b.integrity
  streaming : req.streaming = true → ∃ n, decodedLength req.header = some n ∧ b.size = some n
  plain : req.streaming = false → b.size = req.contentLength ∧ b.expectedSize = (decodedLength req.header).or req.contentLength

theorem prepared (h : (prepareBody req).bind (prepareUploadBody hash req) = .ok b) : Prepared req b := by
  cases hi : newIntegrity req.header with
  | error e =>
    exfalso
    cases hbody : prepareBody req with
    | error e' => rw [hbody] at h; cases h
    | ok body =>
      rw [hbody] at h
      simp only [Except.bind, prepareUploadBody, hi, bind] at h
      cases h
  | ok i =>
    have htaken := newIntegrity_ok hi
    unfold prepareBody at h
    split at h
    · next hplain =>
      rw [Except.bind, prepareUploadBody, hi] at h
      cases h
      have hfalse : req.streaming = false := by simpa using hplain
      refine ⟨⟨trivial, req.sized, rfl, fun d => rfl⟩, htaken, fun ht => ?_, fun _ => ⟨rfl, rfl⟩⟩
      rw [hfalse] at ht
      cases ht
    · next hstream =>
      have htrue : req.streaming = true := by simpa using hstream
      split at h
      · cases h
      · split at h
        · rw [Except.bind, prepareUploadBody, hi] at h
          cases h
        · split at h
          · cases h
          · next n hn =>
            rw [Except.bind, prepareUploadBody, hi] at h
            cases h
            refine ⟨⟨⟨nofun, fun k hk => Nat.zero_le k⟩, ⟨rfl, rfl⟩, rfl, fun d => rfl⟩, htaken, fun _ => ⟨n, hn, rfl⟩, fun hf => ?_⟩
            rw [htrue] at hf
            cases hf

theorem put_ok (h : put hash run fuel req = some (.ok ack)) : ∃ b content, Prepared req b ∧ Kept hash run b content ack := by
  unfold put at h
  split at h
  · cases h
  · next b hb =>
    obtain ⟨content, hkept⟩ := putLocal_ok (prepared hb).fresh h
    exact ⟨b, content, prepared hb, hkept⟩

theorem mem_of_firstObjectChecksum {checks : List (Digest × Bytes)} (h : firstObjectChecksum checks = some c) :
    c ∈ checks := mem_of_find?_eq_some h

theorem trailerGet_mem {trailers : List (Bytes × Bytes)} (h : trailerGet trailers d ≠ []) :
    trailerGet trailers d ∈ trailerValues trailers d := by
  unfold trailerGet at h ⊢
  cases hv : trailerValues trailers d with
  | nil => rw [hv] at h; exact absurd rfl h
  | cons v vs => simp

theorem trailerLine_mem (h : req.trailerLine ≠ []) : req.trailerLine ∈ req.trailerLines := by
  unfold PutRequest.trailerLine Header.get at h ⊢
  unfold PutRequest.trailerLines
  cases hv : req.header.values (ascii "x-amz-trailer") with
  | nil => rw [hv] at h; exact absurd rfl h
  | cons v vs => simp

theorem ne_nil_of_announced {line : Bytes} (h : Announced line d) : line ≠ [] := by
  rintro rfl
  obtain ⟨name, hname, -⟩ := h
  cases hname

variable {b : UploadBody hash}

section

variable (hp : Prepared req b)
include hp

theorem header_right (hk : Kept hash run b content ack)
    (hc : ∀ d v, req.header.Declares d v → Announced req.trailerLine d → trailerGet ack.trailers d = v) {v : Bytes}
    (hd : req.header.Declares d v) : (hash d).digest content = v := by
  obtain ⟨got, checks, hv, hgot, -⟩ := hk.verified
  by_cases ha : Announced req.trailerLine d
  · obtain ⟨-, hh, heq⟩ := hv.trailers d ((hp.taken.trailers d).2 ha)
    rw [← hgot d hh, heq, hc d v hd ha]
  · obtain ⟨hh, heq⟩ := hv.expected (d, v) ((hp.taken.expected d v).2 hd) fun hm => ha ((hp.taken.trailers d).1 hm)
    rw [← hgot d hh, heq]

theorem trailer_right (hk : Kept hash run b content ack) (ha : Announced req.trailerLine d) :
    trailerGet ack.trailers d ≠ [] ∧ (hash d).digest content = trailerGet ack.trailers d := by
  obtain ⟨got, checks, hv, hgot, -⟩ := hk.verified
  obtain ⟨hne, hh, heq⟩ := hv.trailers d ((hp.taken.trailers d).2 ha)
  exact ⟨hne, by rw [← hgot d hh, heq]⟩

theorem checksum_right (hk : Kept hash run b content ack)
    (hc : ∀ d v, req.header.Declares d v → (hash d).digest content = v)
    (h : ack.object.checksum = some c) : (hash c.1).digest content = c.2 := by
  obtain ⟨got, checks, hv, hgot, hsum⟩ := hk.verified
  rw [hsum, recorded] at h
  obtain ⟨hor, -⟩ := filter_eq_some_iff.1 h
  rcases or_eq_some_iff.1 hor with he | ⟨-, he⟩
  · have hmem := mem_of_firstObjectChecksum he
    exact hc c.1 c.2 ((hp.taken.expected c.1 c.2).1 ((run.first.perm _).mem_iff.1 hmem))
  · obtain ⟨hh, heq⟩ := hv.checks c (mem_of_firstObjectChecksum he)
    rw [← hgot c.1 hh, heq]

theorem length_right (hk : Kept hash run b content ack)
    (hc : req.streaming = false → ∀ n, decodedLength req.header = some n →
      (∀ m, req.contentLength = some m → m = n) ∧ (req.contentLength = none → n = 0 → content = []))
    (h : req.Length n) : content.length = n := by
  cases hs : req.streaming with
  | true =>
    obtain ⟨m, hm, hsize⟩ := hp.streaming hs
    rcases h with h | ⟨hf, -⟩
    · rw [hm] at h
      cases h
      exact hk.size _ hsize
    · rw [hs] at hf
      cases hf
  | false =>
    obtain ⟨hsize, hexp⟩ := hp.plain hs
    rcases h with h | ⟨-, h⟩
    · obtain ⟨hsame, hzero⟩ := hc hs n h
      cases hlen : req.contentLength with
      | some m =>
        rw [← hsame m hlen]
        exact hk.size m (hsize.trans hlen)
      | none =>
        by_cases hn : n = 0
        · rw [hzero hlen hn, hn]
          rfl
        · rw [h, some_or] at hexp
          exact hk.expected (hsize.trans hlen) n hexp (by omega)
    · exact hk.size n (hsize.trans h)

end

/-- An acknowledged PUT is intact if and only if the request agrees with itself where nothing is
compared. -/
theorem put_integrity_iff (hash : Digest → Hash) (run : Run) (fuel : Nat) (req : PutRequest) (ack : Acked)
    (h : put hash run fuel req = some (.ok ack)) :
    ∃ content, ack.object.content run.z = .ok content ∧ (Intact hash req content ack ↔ Consistent hash req content ack.trailers) := by
  obtain ⟨b, content, hp, hk⟩ := put_ok h
  refine ⟨content, hk.stored, fun hi => ⟨fun d v hd ha => ?_, fun d ha v hv => ?_, fun line hl d ha _ => ?_, fun hs n hn => ?_⟩,
    fun hc => ⟨?_, fun line hl d ha => ?_, ?_, ?_⟩⟩
  · rw [← (trailer_right hp hk ha).2, hi.header d v hd]
  · rw [← (trailer_right hp hk ha).2]
    exact ((hi.trailers _ (trailerLine_mem (ne_nil_of_announced ha)) d ha).2 v hv).symm
  · exact hi.trailers line hl d ha
  · have hlen := hi.length n (.inl hn)
    refine ⟨fun m hm => ?_, fun _ hz => length_eq_zero_iff.1 (hlen.trans hz)⟩
    rw [← hi.length m (.inr ⟨hs, hm⟩), hlen]
  · exact fun d v hd => header_right hp hk hc.replaced hd
  · by_cases hfirst : Announced req.trailerLine d
    · obtain ⟨hne, hright⟩ := trailer_right hp hk hfirst
      refine ⟨ne_nil_of_mem (trailerGet_mem hne), fun v hv => ?_⟩
      rw [hright, hc.repeated d hfirst v hv]
    · exact hc.later line hl d ha hfirst
  · exact fun n hn => length_right hp hk hc.decoded hn
  · exact fun c hsum => checksum_right hp hk (fun d v hd => header_right hp hk hc.replaced hd) hsum

/-! ## A digest that is replaced -/

def Hash.echo : Hash where
  State := Bytes
  init := []
  write := (· ++ ·)
  sum := id
  write_nil := append_nil
  write_append := append_assoc

def Run.plain : Run := ⟨.plain, ⟨id, fun m => .refl m⟩, ⟨id, fun m => .refl m⟩, 1, true⟩

def PutRequest.replaced : PutRequest where
  header := {
    fields := [ (ascii "x-amz-content-sha256", [ascii "STREAMING-UNSIGNED-PAYLOAD-TRAILER"]),
      (ascii "x-amz-decoded-content-length", [ascii "3"]),
      (ascii "x-amz-trailer", [ascii "x-amz-checksum-crc32"]),
      (ascii "x-amz-checksum-crc32", [ascii "xyz"])]
    nodup := by decide }
  contentLength := none
  src := ⟨ascii "3\r\nabc\r\n0\r\nx-amz-checksum-crc32:abc\r\n\r\n", []⟩
  ending := .eof
  trailer := []
  sized := nofun

theorem put_replaced : put (fun _ => .echo) .plain 9 .replaced =
    some (.ok ⟨⟨.inline (ascii "abc"), 3, some (.crc32, ascii "xyz")⟩, [(ascii "x-amz-checksum-crc32", ascii "abc")]⟩) := by
  decide +kernel

/-- The header's value is recorded, though it is not the digest. -/
theorem put_records_wrong_checksum : ¬ ∀ hash run fuel req ack, put hash run fuel req = some (.ok ack) →
    ∃ content, ack.object.content run.z = .ok content ∧ Intact hash req content ack := by
  intro h
  obtain ⟨content, hcontent, hi⟩ := h _ _ _ _ _ put_replaced
  cases hcontent
  exact absurd (hi.checksum _ rfl) (by decide)

theorem put_integrity_replaced : ∃ ack content, put (fun _ => .echo) .plain 9 .replaced = some (.ok ack) ∧
    (Intact (fun _ => .echo) .replaced content ack ↔ Consistent (fun _ => .echo) .replaced content ack.trailers) :=
  have ⟨content, _, h⟩ := put_integrity_iff _ _ _ _ _ put_replaced
  ⟨_, content, put_replaced, h⟩

end Pgvs3.Ingest
