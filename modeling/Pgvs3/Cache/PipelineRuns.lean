import Pgvs3.Cache.Pipeline
/-!
# When a pipeline is transparent

Tables that are alike give the same answers and stay alike (`execCommand_congr`), so it is enough to
compare one segment with its commands one by one: `gets_iff` and `sets_iff`.
-/

namespace Pgvs3.Pipeline

open Cache (Key Row Space Encoder)
open List Function

/-! ## Tables that are alike -/

variable {a b c : Space}

theorem Tables.refl (a : Space) : Tables a a := ⟨Cache.same_refl a, rfl⟩

theorem Tables.symm (h : Tables a b) : Tables b a :=
  ⟨⟨fun k => (h.same.row k).symm, fun k => (h.same.partChecksums k).symm, fun k => (h.same.originMetadata k).symm,
    fun f => (h.same.garbage f).symm⟩, h.uploadParts.symm⟩

theorem Tables.trans (h : Tables a b) (h' : Tables b c) : Tables a c :=
  ⟨⟨fun k => (h.same.row k).trans (h'.same.row k), fun k => (h.same.partChecksums k).trans (h'.same.partChecksums k),
    fun k => (h.same.originMetadata k).trans (h'.same.originMetadata k), fun f => (h.same.garbage f).trans (h'.same.garbage f)⟩,
    h.uploadParts.trans h'.uploadParts⟩

theorem Alike.refl (a : Space) : Alike a a := ⟨Tables.refl a, rfl⟩

theorem Alike.symm (h : Alike a b) : Alike b a := ⟨h.toTables.symm, h.nextFile.symm⟩

theorem Alike.trans (h : Alike a b) (h' : Alike b c) : Alike a c := ⟨h.toTables.trans h'.toTables, h.nextFile.trans h'.nextFile⟩

theorem files_congr {k : Key} (h : (a.objects.lookup k).map Row.read = (b.objects.lookup k).map Row.read) : a.files k = b.files k := by
  have hmap : ∀ st : Space, st.files k = (((st.objects.lookup k).map Row.read).map (·.body.files)).getD [] := by
    intro st
    rw [Option.map_map]
    rfl
  rw [hmap, hmap, h]

theorem Db.readRow_read (db : Db) (r : Row) : db.readRow r.read = db.readRow r := rfl

theorem Db.read_congr (db : Db) (h : Tables a b) (k : Key) : db.read a k = db.read b k := by
  have hrow := h.same.row k
  unfold Db.read
  split
  · rfl
  · cases ha : a.objects.lookup k <;> cases hb : b.objects.lookup k <;> rw [ha, hb] at hrow
    · cases hrow
    · cases hrow
    · next r r' =>
      show db.readRow r = db.readRow r'
      rw [← db.readRow_read, Option.some.inj hrow, db.readRow_read]

theorem Db.faultAt_congr (db : Db) (h : Tables a b) (name : Text) (kv : Key × Bytes) : db.faultAt name a kv = db.faultAt name b kv := by
  rw [Db.faultAt, Db.faultAt, db.exceeds_congr name a b h]

theorem Tables.publishValue (h : Tables a b) (k : Key) (row : Row) :
    Tables (Cache.publishValue a k row) (Cache.publishValue b k row) := by
  have hlook : ∀ (st : Space) k', (Cache.publishValue st k row).objects.lookup k' = if k' == k then some row else st.objects.lookup k' :=
    fun st k' => Data.lookup_assign _ _ _ k'
  have hrow : ∀ k', ((Cache.publishValue a k row).objects.lookup k').map Row.read =
      ((Cache.publishValue b k row).objects.lookup k').map Row.read := by
    intro k'
    rw [hlook, hlook]
    split
    · rfl
    · exact h.same.row k'
  refine ⟨⟨hrow, fun k' => ?_, fun k' => ?_, fun f => ?_⟩, h.uploadParts⟩
  · show (Data.erase a.partChecksums k).filter _ = (Data.erase b.partChecksums k).filter _
    rw [Data.erase, Data.erase, filter_comm, filter_comm _ _ b.partChecksums, h.same.partChecksums k']
  · show (Data.erase a.originMetadata k).lookup k' = (Data.erase b.originMetadata k).lookup k'
    rw [Data.lookup_erase, Data.lookup_erase, h.same.originMetadata k']
  · have hgarbage : ∀ st : Space, f ∈ (Cache.publishValue st k row).garbage ↔
        f ∈ st.garbage ∨ f ∈ st.files k ∧ (¬ ∃ k', f ∈ (Cache.publishValue st k row).files k') ∧ f ∉ st.uploadParts :=
      fun st => Cache.mem_queueGarbage
    rw [hgarbage, hgarbage, h.same.garbage, files_congr (h.same.row k), h.uploadParts]
    simp [fun k' => files_congr (hrow k')]

theorem Alike.set {e : Encoder} {now : Nat} (h : Alike a b) (kv : Key × Bytes) : Alike (Cache.set e now a kv) (Cache.set e now b kv) := by
  unfold Cache.set
  split
  · exact ⟨h.toTables.publishValue _ _, h.nextFile⟩
  · rw [h.nextFile]
    have hnext : Tables { a with nextFile := b.nextFile + 1 } { b with nextFile := b.nextFile + 1 } := ⟨⟨h.same.row, h.same.partChecksums,
      h.same.originMetadata, h.same.garbage⟩, h.uploadParts⟩
    exact ⟨hnext.publishValue _ _, rfl⟩

theorem Tables.failed (st : Space) (kv : Key × Bytes) (f : Fault) : Tables (Db.failed st kv f) st := by
  unfold Db.failed
  split
  · exact Tables.refl st
  · split
    · exact Tables.refl st
    · exact ⟨⟨fun _ => rfl, fun _ => rfl, fun _ => rfl, fun _ => Iff.rfl⟩, rfl⟩

theorem Alike.failed (h : Alike a b) (kv : Key × Bytes) (f : Fault) : Alike (Db.failed a kv f) (Db.failed b kv f) := by
  refine ⟨(Tables.failed a kv f).trans (h.toTables.trans (Tables.failed b kv f).symm), ?_⟩
  unfold Db.failed
  split
  · exact h.nextFile
  · split
    · exact h.nextFile
    · exact congrArg (· + 1) h.nextFile

theorem Alike.alone (db : Db) (h : Alike a b) (name : Text) (kv : Key × Bytes) :
    (db.alone name a kv).1 = (db.alone name b kv).1 ∧ Alike (db.alone name a kv).2 (db.alone name b kv).2 := by
  rw [Db.alone, Db.alone, db.faultAt_congr h.toTables]
  split
  · exact ⟨rfl, h.failed kv _⟩
  · exact ⟨rfl, h.set kv⟩

/-! ## States that are alike -/

variable {C W : Type} {srv : Server C W} {s s' s'' : State W}

theorem State.Alike.refl (s : State W) : s.Alike s := ⟨fun _ => Pipeline.Alike.refl _, rfl, rfl, rfl⟩

theorem State.Alike.symm (h : s.Alike s') : s'.Alike s := ⟨fun n => (h.caches n).symm, h.rest.symm, h.bucket.symm, h.quit.symm⟩

theorem State.Alike.trans (h : s.Alike s') (h' : s'.Alike s'') : s.Alike s'' :=
  ⟨fun n => (h.caches n).trans (h'.caches n), h.rest.trans h'.rest, h.bucket.trans h'.bucket, h.quit.trans h'.quit⟩

theorem State.Alike.current (h : s.Alike s') : Pipeline.Alike s.current s'.current := by
  rw [State.current, State.current, h.bucket]
  exact h.caches _

@[simp] theorem State.put_bucket (s : State W) (st : Space) : (s.put st).bucket = s.bucket := rfl

@[simp] theorem State.put_quit (s : State W) (st : Space) : (s.put st).quit = s.quit := rfl

@[simp] theorem State.current_put (s : State W) (st : Space) : (s.put st).current = st := update_self _ _ _

@[simp] theorem State.put_put (s : State W) (st st' : Space) : (s.put st).put st' = s.put st' := by
  simp [State.put]

@[simp] theorem State.put_current (s : State W) : s.put s.current = s := by
  simp [State.put, State.current]

theorem State.Alike.put (h : s.Alike s') {st st' : Space} (hst : Pipeline.Alike st st') : (s.put st).Alike (s'.put st') := by
  refine ⟨fun n => ?_, h.rest, h.bucket, h.quit⟩
  simp only [State.put, h.bucket]
  by_cases hn : n = s'.bucket
  · rw [hn, update_self, update_self]
    exact hst
  · rw [update_of_ne hn, update_of_ne hn]
    exact h.caches n

theorem State.put_alike_iff {st st' : Space} : (s.put st).Alike (s.put st') ↔ Pipeline.Alike st st' := by
  constructor
  · intro h
    simpa using h.current
  · exact (State.Alike.refl s).put

theorem execCommand_congr (h : s.Alike s') (c : Cmd C) :
    (srv.execCommand s c).1 = (srv.execCommand s' c).1 ∧ (srv.execCommand s c).2.Alike (srv.execCommand s' c).2 := by
  cases c with
  | get raw =>
    refine ⟨?_, h⟩
    show srv.cmdGet s raw = srv.cmdGet s' raw
    unfold Server.cmdGet
    split
    · exact srv.others.readBucket_congr _ _ _ _ h
    · exact congrArg getReply (srv.db.read_congr h.current.toTables raw)
  | set raw v =>
    show (srv.cmdSet s raw v).1 = (srv.cmdSet s' raw v).1 ∧ (srv.cmdSet s raw v).2.Alike (srv.cmdSet s' raw v).2
    obtain ⟨hfault, hst⟩ := h.current.alone srv.db s.bucket (raw, v)
    unfold Server.cmdSet
    split
    · exact ⟨rfl, h⟩
    · split
      · rw [← h.bucket]
        exact ⟨congrArg setReply hfault, h.put hst⟩
      · exact ⟨rfl, h⟩
  | other c => exact srv.others.run_congr c s s' h

theorem oneByOne_cons (hq : s.quit = false) (c : Cmd C) (cs : List (Cmd C)) : srv.oneByOne (c :: cs) s =
    ((srv.execCommand s c).1 :: (srv.oneByOne cs (srv.execCommand s c).2).1, (srv.oneByOne cs (srv.execCommand s c).2).2) := by
  rw [Server.oneByOne, if_neg (by simp [hq])]

theorem oneByOne_quit (h : s.quit = true) (cs : List (Cmd C)) : srv.oneByOne cs s = ([], s) := by
  cases cs with
  | nil => rfl
  | cons c cs => rw [Server.oneByOne, if_pos h]

theorem oneByOne_congr (h : s.Alike s') (cs : List (Cmd C)) : SameOutcome (srv.oneByOne cs s) (srv.oneByOne cs s') := by
  induction cs generalizing s s' with
  | nil => exact ⟨rfl, h⟩
  | cons c cs ih =>
    cases hq : s.quit with
    | true =>
      rw [oneByOne_quit hq, oneByOne_quit (h.quit ▸ hq)]
      exact ⟨rfl, h⟩
    | false =>
      have hone : (srv.execCommand s c).1 = (srv.execCommand s' c).1 ∧ (srv.execCommand s c).2.Alike (srv.execCommand s' c).2 :=
        execCommand_congr h c
      obtain ⟨hreplies, hfinal⟩ := ih hone.2
      rw [oneByOne_cons hq, oneByOne_cons (h.quit ▸ hq)]
      exact ⟨cons_eq_cons.2 ⟨hone.1, hreplies⟩, hfinal⟩

theorem oneByOne_append (cs cs' : List (Cmd C)) (s : State W) : srv.oneByOne (cs ++ cs') s =
    ((srv.oneByOne cs s).1 ++ (srv.oneByOne cs' (srv.oneByOne cs s).2).1, (srv.oneByOne cs' (srv.oneByOne cs s).2).2) := by
  induction cs generalizing s with
  | nil => rfl
  | cons c cs ih =>
    cases hq : s.quit with
    | true => simp only [oneByOne_quit hq, append_nil]
    | false => simp [oneByOne_cons hq, ih]

/-! ## GETs -/

variable {db : Db} {st : Space}

theorem Fault.error_injective {f f' : Fault} (h : f.error = f'.error) : f = f' := by
  have hq : (Fault.quota.error).head? = some 'n' := rfl
  have hd (m : Text) : (Fault.db m).error.head? = some 'E' := rfl
  have hc (m : Text) : (Fault.corrupt m).error.head? = some 'c' := rfl
  have hhead := congrArg head? h
  cases f <;> cases f' <;> simp only [hd, hc, hq, Option.some.injEq, Char.reduceEq] at hhead
  · rfl
  · rw [append_cancel_left h]
  · rw [append_cancel_left h]

theorem errorText_fault (f : Fault) : errorText f.error = "ERR ".toList ++ f.error := by
  cases f <;> rfl

theorem getReply_injective {x y : Except Fault (Option Bytes)} (h : getReply x = getReply y) : x = y := by
  cases x <;> cases y <;> simp only [getReply, Reply.error.injEq, Reply.bulk.injEq, reduceCtorEq] at h
  · next f f' =>
    rw [errorText_fault, errorText_fault] at h
    rw [Fault.error_injective (append_cancel_left h)]
  · rw [h]

theorem coalescedError_eq (f : Fault) : Server.coalescedError f = getReply (.error f) := by
  rw [Server.coalescedError, getReply, errorText_fault]

variable {ks : List Key}

theorem oneByOne_gets (hq : s.quit = false) (hks : ∀ k ∈ ks, resolveTarget k = none) :
    srv.oneByOne (ks.map .get) s = (ks.map fun k => getReply (srv.db.read s.current k), s) := by
  induction ks with
  | nil => rfl
  | cons k ks ih =>
    have hget : srv.cmdGet s k = getReply (srv.db.read s.current k) := by
      rw [Server.cmdGet, hks k mem_cons_self]
    rw [map_cons, oneByOne_cons hq]
    simp [Server.execCommand, ih fun k hk => hks k (mem_cons_of_mem _ hk), hget]

theorem mapM_cases {α ε β : Type} (f : α → Except ε β) (xs : List α) :
    (∃ vs, xs.mapM f = .ok vs ∧ xs.map f = vs.map .ok) ∨ ∃ e, xs.mapM f = .error e ∧ ∃ x ∈ xs, f x = .error e := by
  induction xs with
  | nil => exact .inl ⟨[], rfl, rfl⟩
  | cons x xs ih =>
    rw [mapM_cons]
    cases hx : f x with
    | error e => exact .inr ⟨e, rfl, x, mem_cons_self, hx⟩
    | ok v =>
      rcases ih with ⟨vs, hvs, hmap⟩ | ⟨e, he, y, hy, hfy⟩
      · refine .inl ⟨v :: vs, by rw [hvs]; rfl, ?_⟩
        rw [map_cons, map_cons, hx, hmap]
      · exact .inr ⟨e, by rw [he]; rfl, y, mem_cons_of_mem _ hy, hfy⟩

/-- What `MGet` reads is what `Get` reads; what fails it is the fault of some key. -/
theorem Db.mget_cases (db : Db) (st : Space) (ks : List Key) :
    (∃ vs, db.mget st ks = .ok vs ∧ ks.map (db.read st) = vs.map .ok) ∨
      ∃ f, db.mget st ks = .error f ∧ ∃ k ∈ ks, db.read st k = .error f := by
  unfold Db.mget
  split
  · next m hm =>
    obtain ⟨k, hk, hfault⟩ := exists_of_findSome?_eq_some hm
    exact .inr ⟨_, rfl, k, hk, by rw [Db.read, hfault]⟩
  · exact mapM_cases (db.read st) ks

theorem gets_iff (hq : s.quit = false) (hks : ∀ k ∈ ks, resolveTarget k = none) :
    SameOutcome (srv.execSegment s (.gets ks)) (srv.oneByOne (Segment.gets ks).commands s) ↔ (Segment.gets ks).Agrees srv s := by
  have hone : srv.oneByOne (Segment.gets ks).commands s = (ks.map fun k => getReply (srv.db.read s.current k), s) := oneByOne_gets hq hks
  rw [hone]
  rcases srv.db.mget_cases s.current ks with ⟨vs, hmget, hvs⟩ | ⟨f, hmget, k, hk, hf⟩
  · refine iff_of_true ⟨?_, ?_⟩ (.inl fun k hk => ?_)
    · simp only [Server.execSegment, hmget]
      have := congrArg (List.map getReply) hvs
      rw [List.map_map, List.map_map] at this
      exact this.symm
    · simp only [Server.execSegment, hmget]
      exact State.Alike.refl s
    · have : srv.db.read s.current k ∈ vs.map Except.ok := hvs ▸ mem_map_of_mem hk
      obtain ⟨v, -, hv⟩ := mem_map.1 this
      exact ⟨v, hv.symm⟩
  · have hsame : SameOutcome (srv.execSegment s (.gets ks)) (ks.map fun k => getReply (srv.db.read s.current k), s) ↔
        ∀ k ∈ ks, srv.db.read s.current k = .error f := by
      simp only [SameOutcome, Server.execSegment, hmget, State.Alike.refl, and_true, coalescedError_eq]
      rw [eq_comm, eq_replicate_iff]
      simp only [length_map, true_and, forall_mem_map]
      exact ⟨fun h k hk => getReply_injective (h k hk), fun h k hk => by rw [h k hk]⟩
    rw [hsame]
    constructor
    · exact fun h => .inr ⟨f, h⟩
    · rintro (hok | ⟨f', hall⟩)
      · obtain ⟨v, hv⟩ := hok k hk
        rw [hf] at hv
        cases hv
      · have := (hall k hk).symm.trans hf
        cases this
        exact hall

/-! ## SETs -/

variable {name : Text} {kvs : List (Key × Bytes)} {f : Fault}

def Db.aloneAll (db : Db) (name : Text) : List (Key × Bytes) → Space → List (Option Fault) × Space
  | [], st => ([], st)
  | kv :: kvs, st =>
    ((db.alone name st kv).1 :: (aloneAll db name kvs (db.alone name st kv).2).1, (aloneAll db name kvs (db.alone name st kv).2).2)

variable {kv : Key × Bytes}

theorem Db.alone_none (h : db.faultAt name st kv = none) : db.alone name st kv = (none, Cache.set db.e db.now st kv) := by
  rw [Db.alone, h]

theorem Db.alone_some (h : db.faultAt name st kv = some f) : db.alone name st kv = (some f, Db.failed st kv f) := by
  rw [Db.alone, h]

theorem Db.alone_fst (kv : Key × Bytes) : (db.alone name st kv).1 = db.faultAt name st kv := by
  rw [Db.alone]
  split <;> next h => exact h.symm

theorem length_aloneAll : (db.aloneAll name kvs st).1.length = kvs.length := by
  induction kvs generalizing st with
  | nil => rfl
  | cons kv kvs ih => rw [Db.aloneAll, length_cons, ih, length_cons]

theorem setReply_injective {x y : Option Fault} (h : setReply x = setReply y) : x = y := by
  cases x <;> cases y <;> simp only [setReply, Reply.error.injEq, reduceCtorEq] at h
  · rfl
  · next f f' =>
    rw [errorText_fault, errorText_fault] at h
    rw [Fault.error_injective (append_cancel_left h)]

theorem oneByOne_sets (hq : s.quit = false) (hro : srv.readOnly = false) (hkvs : ∀ kv ∈ kvs, writeTarget kv.1 = true) :
    srv.oneByOne (kvs.map fun kv => .set kv.1 kv.2) s =
      ((srv.db.aloneAll s.bucket kvs s.current).1.map setReply, s.put (srv.db.aloneAll s.bucket kvs s.current).2) := by
  induction kvs generalizing s with
  | nil => rw [Db.aloneAll, State.put_current]; rfl
  | cons kv kvs ih =>
    have hset : srv.execCommand s (.set kv.1 kv.2) =
        (setReply (srv.db.alone s.bucket s.current kv).1, s.put (srv.db.alone s.bucket s.current kv).2) := by
      simp [Server.execCommand, Server.cmdSet, hro, hkvs kv mem_cons_self]
    have hrest := ih (s := s.put (srv.db.alone s.bucket s.current kv).2) hq fun kv hkv => hkvs kv (mem_cons_of_mem _ hkv)
    rw [map_cons, oneByOne_cons hq, hset, hrest]
    simp [Db.aloneAll]

theorem execSegment_sets : srv.execSegment s (.sets kvs) =
    (List.replicate kvs.length (setReply (srv.db.mset s.bucket kvs s.current).1), s.put (srv.db.mset s.bucket kvs s.current).2) := by
  cases h : srv.db.mset s.bucket kvs s.current with
  | mk fault st =>
    cases fault with
    | none => simp only [Server.execSegment, h, setReply]
    | some f => simp [Server.execSegment, h, setReply, Server.coalescedError, errorText_fault]

theorem sets_outcome (hq : s.quit = false) (hro : srv.readOnly = false) (hkvs : ∀ kv ∈ kvs, writeTarget kv.1 = true) :
    SameOutcome (srv.execSegment s (.sets kvs)) (srv.oneByOne (Segment.sets kvs).commands s) ↔
      (∀ x ∈ (srv.db.aloneAll s.bucket kvs s.current).1, x = (srv.db.mset s.bucket kvs s.current).1) ∧
        Alike (srv.db.mset s.bucket kvs s.current).2 (srv.db.aloneAll s.bucket kvs s.current).2 := by
  rw [execSegment_sets,
    show (Segment.sets kvs : Segment C).commands = kvs.map fun kv => .set kv.1 kv.2 from rfl,
    oneByOne_sets hq hro hkvs, SameOutcome, State.put_alike_iff, eq_comm, eq_replicate_iff]
  simp only [length_map, length_aloneAll, true_and, forall_mem_map]
  exact and_congr_left fun _ => ⟨fun h x hx => setReply_injective (h x hx), fun h x hx => by rw [h x hx]⟩

/-! ### None fails -/

theorem aloneAll_none_iff : (∀ x ∈ (db.aloneAll name kvs st).1, x = none) ↔
    ∀ done kv later, kvs = done ++ kv :: later → db.faultAt name (Cache.setAll db.e db.now st done) kv = none := by
  induction kvs generalizing st with
  | nil => simp [Db.aloneAll]
  | cons kv kvs ih =>
    rw [Db.aloneAll, forall_mem_cons, Db.alone_fst]
    constructor
    · rintro ⟨hkv, hrest⟩ done kv' later hsplit
      rw [Db.alone_none hkv, ih] at hrest
      cases done with
      | nil =>
        cases hsplit
        exact hkv
      | cons x done =>
        obtain ⟨rfl, rfl⟩ := cons_eq_cons.1 hsplit
        exact hrest done kv' later rfl
    · intro h
      have hkv : db.faultAt name st kv = none := h [] kv kvs rfl
      refine ⟨hkv, ?_⟩
      rw [Db.alone_none hkv, ih]
      exact fun done kv' later hsplit => h (kv :: done) kv' later (by rw [hsplit]; rfl)

theorem aloneAll_none (h : ∀ x ∈ (db.aloneAll name kvs st).1, x = none) :
    (db.aloneAll name kvs st).2 = Cache.setAll db.e db.now st kvs ∧
      db.writeAll name kvs st = (none, Cache.setAll db.e db.now st kvs) := by
  induction kvs generalizing st with
  | nil => exact ⟨rfl, rfl⟩
  | cons kv kvs ih =>
    rw [Db.aloneAll, forall_mem_cons, Db.alone_fst] at h
    obtain ⟨hkv, hrest⟩ := h
    rw [Db.alone_none hkv] at hrest
    obtain ⟨hstate, hwrite⟩ := ih hrest
    constructor
    · rw [Db.aloneAll, Db.alone_none hkv]
      exact hstate
    · rw [Db.writeAll, Db.alone_none hkv]
      exact hwrite

/-! ### All fail -/

theorem aloneAll_some_iff : (∀ x ∈ (db.aloneAll name kvs st).1, x = some f) ↔ ∀ kv ∈ kvs, db.faultAt name st kv = some f := by
  induction kvs generalizing st with
  | nil => simp [Db.aloneAll]
  | cons kv kvs ih =>
    rw [Db.aloneAll, forall_mem_cons, forall_mem_cons, Db.alone_fst]
    refine and_congr_right fun hkv => ?_
    rw [Db.alone_some hkv, ih]
    -- what a failure leaves does not matter to the next
    simp [db.faultAt_congr (Tables.failed st kv f)]

theorem aloneAll_some (h : ∀ kv ∈ kvs, db.faultAt name st kv = some f) :
    (db.aloneAll name kvs st).2 = kvs.foldl (fun st kv => Db.failed st kv f) st := by
  induction kvs generalizing st with
  | nil => rfl
  | cons kv kvs ih =>
    rw [forall_mem_cons] at h
    rw [Db.aloneAll, Db.alone_some h.1]
    refine ih fun kv' hkv' => ?_
    rw [db.faultAt_congr (Tables.failed st kv f)]
    exact h.2 kv' hkv'

theorem tables_failures : Tables (kvs.foldl (fun st kv => Db.failed st kv f) st) st := by
  induction kvs generalizing st with
  | nil => exact Tables.refl st
  | cons kv kvs ih => exact ih.trans (Tables.failed st kv f)

theorem failed_small (h : f = .quota ∨ kv.2.length ≤ Cache.inlineMax) : Db.failed st kv f = st := by
  unfold Db.failed
  split
  · rfl
  · exact if_pos (h.resolve_left ‹_›)

theorem failed_large (hf : f ≠ .quota) (h : ¬ kv.2.length ≤ Cache.inlineMax) : (Db.failed st kv f).nextFile = st.nextFile + 1 := by
  unfold Db.failed
  split
  · exact absurd rfl hf
  · rw [if_neg h]

/-- Failures use up file ids unless they are of small values or for the quota. -/
theorem nextFile_failures (kvs : List (Key × Bytes)) (st : Space) :
    st.nextFile ≤ (kvs.foldl (fun st kv => Db.failed st kv f) st).nextFile ∧
      ((kvs.foldl (fun st kv => Db.failed st kv f) st).nextFile = st.nextFile ↔
        f = .quota ∨ ∀ kv ∈ kvs, kv.2.length ≤ Cache.inlineMax) := by
  induction kvs generalizing st with
  | nil => simp
  | cons kv kvs ih =>
    rw [foldl_cons, forall_mem_cons]
    obtain ⟨hle, heq⟩ := ih (Db.failed st kv f)
    by_cases h : f = .quota ∨ kv.2.length ≤ Cache.inlineMax
    · rw [failed_small h] at hle heq ⊢
      refine ⟨hle, heq.trans ?_⟩
      tauto
    · obtain ⟨hf, hlarge⟩ := not_or.1 h
      rw [failed_large hf hlarge] at hle
      have hlt : st.nextFile < (kvs.foldl (fun st kv => Db.failed st kv f) (Db.failed st kv f)).nextFile :=
        lt_of_lt_of_le (PNat.lt_add_right _ _) hle
      exact ⟨hlt.le, iff_of_false hlt.ne' fun h' => h (h'.imp_right And.left)⟩

/-! ### Segments of SETs -/

theorem setAll_small (h : ∀ kv ∈ kvs, kv.2.length ≤ Cache.inlineMax) :
    (Cache.setAll db.e db.now st kvs).uploadParts = st.uploadParts ∧ (Cache.setAll db.e db.now st kvs).nextFile = st.nextFile := by
  induction kvs generalizing st with
  | nil => exact ⟨rfl, rfl⟩
  | cons kv kvs ih =>
    rw [forall_mem_cons] at h
    have hset : Cache.setAll db.e db.now st (kv :: kvs) = Cache.setAll db.e db.now (Cache.set db.e db.now st kv) kvs := rfl
    rw [hset, (ih h.2).1, (ih h.2).2, Cache.set_small h.1]
    exact ⟨rfl, rfl⟩

/-- The statement for all keys ends as the SETs do when there is no origin metadata. -/
theorem cacheMSet_alike_iff (h : ∀ kv ∈ kvs, kv.2.length ≤ Cache.inlineMax) :
    Alike (Cache.cacheMSet db.e db.now st (Cache.encodeCacheBatch kvs)) (Cache.setAll db.e db.now st kvs) ↔
      ∀ kv ∈ kvs, st.originMetadata.lookup kv.1 = none := by
  rw [← Cache.same_cacheMSet_iff h]
  obtain ⟨hparts, hnext⟩ : (Cache.setAll db.e db.now st kvs).uploadParts = st.uploadParts ∧
      (Cache.setAll db.e db.now st kvs).nextFile = st.nextFile := setAll_small h
  exact ⟨fun ha => ha.same, fun hs => ⟨⟨hs, hparts.symm⟩, hnext.symm⟩⟩

theorem small_iff (hl : Cache.large kvs = false) :
    ((∀ x ∈ (db.aloneAll name kvs st).1, x = (db.mset name kvs st).1) ∧ Alike (db.mset name kvs st).2 (db.aloneAll name kvs st).2) ↔
      SetsAgree db name st kvs := by
  have hsmall := Cache.small_of_not_large hl
  rw [SetsAgree, if_neg (by simp [hl]), Db.mset, if_neg (by simp [hl])]
  cases hm : db.msetFault name st kvs with
  | none =>
    simp only [true_and, reduceCtorEq, false_and, exists_false, or_false]
    rw [← aloneAll_none_iff]
    refine and_congr_right fun hall => ?_
    rw [(aloneAll_none hall).1, cacheMSet_alike_iff hsmall]
  | some f =>
    simp only [reduceCtorEq, false_and, false_or, Option.some.injEq]
    rw [aloneAll_some_iff]
    constructor
    · exact fun h => ⟨f, rfl, h.1⟩
    · rintro ⟨f', rfl, h⟩
      refine ⟨h, ?_⟩
      rw [aloneAll_some h]
      have hnext := (nextFile_failures (f := f) kvs st).2.2 (.inr hsmall)
      exact ⟨tables_failures.symm, hnext.symm⟩

theorem large_iff (hne : kvs ≠ []) (hl : Cache.large kvs = true) :
    ((∀ x ∈ (db.aloneAll name kvs st).1, x = (db.mset name kvs st).1) ∧ Alike (db.mset name kvs st).2 (db.aloneAll name kvs st).2) ↔
      SetsAgree db name st kvs := by
  obtain ⟨kv, rest, rfl⟩ := exists_cons_of_ne_nil hne
  rw [SetsAgree, if_pos hl, Db.mset, if_pos hl, ← aloneAll_none_iff]
  -- when all fail for one reason, the first has failed the whole
  have hfirst : ∀ f, (∀ x ∈ kv :: rest, db.faultAt name st x = some f) → db.writeAll name (kv :: rest) st = (some f, Db.failed st kv f) ∧
        (Alike (Db.failed st kv f) (db.aloneAll name (kv :: rest) st).2 ↔ f = .quota ∨ ∀ x ∈ rest, x.2.length ≤ Cache.inlineMax) := by
    intro f h
    refine ⟨by rw [Db.writeAll, Db.alone_some (h kv mem_cons_self)], ?_⟩
    rw [aloneAll_some h, foldl_cons, ← (nextFile_failures rest (Db.failed st kv f)).2]
    exact ⟨fun ha => ha.nextFile.symm, fun hn => ⟨tables_failures.symm, hn.symm⟩⟩
  constructor
  · rintro ⟨hall, halike⟩
    cases hw : (db.writeAll name (kv :: rest) st).1 with
    | none => exact .inl (hw ▸ hall)
    | some f =>
      rw [hw, aloneAll_some_iff] at hall
      rw [(hfirst f hall).1] at halike
      exact .inr ⟨f, hall, (hfirst f hall).2.1 halike⟩
  · rintro (hall | ⟨f, hall, hids⟩)
    · rw [(aloneAll_none hall).2, (aloneAll_none hall).1]
      exact ⟨hall, Alike.refl _⟩
    · rw [(hfirst f hall).1]
      exact ⟨aloneAll_some_iff.2 hall, (hfirst f hall).2.2 hids⟩

theorem sets_iff (hq : s.quit = false) (hro : srv.readOnly = false) (hne : kvs ≠ []) (hkvs : ∀ kv ∈ kvs, writeTarget kv.1 = true) :
    SameOutcome (srv.execSegment s (.sets kvs)) (srv.oneByOne (Segment.sets kvs).commands s) ↔ (Segment.sets kvs).Agrees srv s := by
  rw [sets_outcome hq hro hkvs]
  cases hl : Cache.large kvs with
  | false => exact small_iff hl
  | true => exact large_iff hne hl

variable {n : Nat} {batch : List (Cmd C)}

/-! ## Segments -/

def Segment.Proper (readOnly : Bool) : Segment C → Prop
  | .gets ks => ∀ k ∈ ks, resolveTarget k = none
  | .sets kvs => readOnly = false ∧ kvs ≠ [] ∧ ∀ kv ∈ kvs, writeTarget kv.1 = true
  | .single _ => True

theorem getRun_spec (batch : List (Cmd C)) :
    (getRun batch).map .get ++ batch.drop (getRun batch).length = batch ∧ ∀ k ∈ getRun batch, resolveTarget k = none := by
  induction batch with
  | nil => exact ⟨rfl, nofun⟩
  | cons c rest ih =>
    cases c with
    | get raw =>
      rw [getRun]
      split
      · next hraw =>
        refine ⟨?_, forall_mem_cons.2 ⟨Option.isNone_iff_eq_none.1 hraw, ih.2⟩⟩
        rw [map_cons, length_cons, drop_succ_cons, cons_append, ih.1]
      · exact ⟨rfl, nofun⟩
    | set | other => exact ⟨rfl, nofun⟩

variable (readOnly : Bool)

theorem setRun_spec (batch : List (Cmd C)) :
    ((setRun readOnly batch).map fun kv => Cmd.set kv.1 kv.2) ++ batch.drop (setRun readOnly batch).length = batch ∧
      ∀ kv ∈ setRun readOnly batch, readOnly = false ∧ writeTarget kv.1 = true := by
  induction batch with
  | nil => exact ⟨rfl, nofun⟩
  | cons c rest ih =>
    cases c with
    | get | other => exact ⟨rfl, nofun⟩
    | set raw v =>
      rw [setRun]
      split
      · next h =>
        simp only [Bool.and_eq_true, Bool.not_eq_true'] at h
        refine ⟨?_, forall_mem_cons.2 ⟨⟨h.1.1, h.2⟩, ih.2⟩⟩
        rw [map_cons, length_cons, drop_succ_cons, cons_append, ih.1]
      · exact ⟨rfl, nofun⟩

theorem segmentsFrom_spec (h : batch.length ≤ n) :
    (segmentsFrom readOnly n batch).flatMap Segment.commands = batch ∧ ∀ seg ∈ segmentsFrom readOnly n batch, seg.Proper readOnly := by
  induction n generalizing batch with
  | zero =>
    rw [length_eq_zero_iff.1 (Nat.le_zero.1 h)]
    exact ⟨rfl, nofun⟩
  | succ n ih =>
    cases batch with
    | nil => exact ⟨rfl, nofun⟩
    | cons c rest =>
      have hrest : rest.length ≤ n := Nat.le_of_succ_le_succ h
      have hdrop : ∀ k, 2 ≤ k → ((c :: rest).drop k).length ≤ n := by
        intro k hk
        rw [length_drop, length_cons]
        omega
      rw [segmentsFrom]
      split
      · next hgets =>
        obtain ⟨hflat, hproper⟩ := ih (hdrop _ hgets)
        obtain ⟨hrun, htargets⟩ := getRun_spec (c :: rest)
        refine ⟨?_, forall_mem_cons.2 ⟨htargets, hproper⟩⟩
        rw [flatMap_cons, hflat]
        exact hrun
      · split
        · next hsets =>
          obtain ⟨hflat, hproper⟩ := ih (hdrop _ hsets)
          obtain ⟨hrun, htargets⟩ := setRun_spec readOnly (c :: rest)
          have hne : setRun readOnly (c :: rest) ≠ [] := ne_nil_of_length_pos (by omega)
          obtain ⟨kv, hkv⟩ := exists_mem_of_ne_nil _ hne
          refine ⟨?_, forall_mem_cons.2 ⟨⟨(htargets kv hkv).1, hne, fun kv hkv => (htargets kv hkv).2⟩, hproper⟩⟩
          rw [flatMap_cons, hflat]
          exact hrun
        · obtain ⟨hflat, hproper⟩ := ih hrest
          refine ⟨?_, forall_mem_cons.2 ⟨trivial, hproper⟩⟩
          rw [flatMap_cons, hflat]
          rfl

theorem pipelineFrom_nil (n : Nat) : pipelineFrom (C := C) readOnly n [] = [] := by
  induction n with
  | zero => rfl
  | succ n ih => exact ih

/-- The segments of a pipeline are its commands in their order. -/
theorem pipelineFrom_spec (h : batch.length ≤ n) :
    (pipelineFrom readOnly n batch).flatMap Segment.commands = batch ∧ ∀ seg ∈ pipelineFrom readOnly n batch, seg.Proper readOnly := by
  induction n generalizing batch with
  | zero =>
    rw [length_eq_zero_iff.1 (Nat.le_zero.1 h)]
    exact ⟨rfl, nofun⟩
  | succ n ih =>
    have hdrop : (batch.drop Server.maxBatch).length ≤ n := by
      rw [length_drop, Server.maxBatch]
      omega
    obtain ⟨hflat, hproper⟩ := ih hdrop
    obtain ⟨hflat', hproper'⟩ := segmentsFrom_spec readOnly (le_refl (batch.take Server.maxBatch).length)
    rw [pipelineFrom]
    refine ⟨?_, fun seg hseg => ?_⟩
    · rw [flatMap_append, hflat, segments, hflat', take_append_drop]
    · rcases mem_append.1 hseg with hseg | hseg
      · exact hproper' seg hseg
      · exact hproper seg hseg

/-! ## Pipelines -/

theorem execSegments_cons (hq : s.quit = false) (seg : Segment C) (segs : List (Segment C)) : srv.execSegments (seg :: segs) s =
    ((srv.execSegment s seg).1 ++ (srv.execSegments segs (srv.execSegment s seg).2).1,
      (srv.execSegments segs (srv.execSegment s seg).2).2) := by
  rw [Server.execSegments, if_neg (by simp [hq])]

theorem execSegments_quit (h : s.quit = true) (segs : List (Segment C)) : srv.execSegments segs s = ([], s) := by
  cases segs with
  | nil => rfl
  | cons seg segs => rw [Server.execSegments, if_pos h]

theorem execSegments_append (segs segs' : List (Segment C)) (s : State W) : srv.execSegments (segs ++ segs') s =
    ((srv.execSegments segs s).1 ++ (srv.execSegments segs' (srv.execSegments segs s).2).1,
      (srv.execSegments segs' (srv.execSegments segs s).2).2) := by
  induction segs generalizing s with
  | nil => rfl
  | cons seg segs ih =>
    cases hq : s.quit with
    | true => simp only [execSegments_quit hq, append_nil]
    | false => simp [execSegments_cons hq, ih]

theorem serveFrom_eq (h : batch.length ≤ n) : srv.serveFrom n batch s = srv.execSegments (pipelineFrom srv.readOnly n batch) s := by
  induction n generalizing batch s with
  | zero => rfl
  | succ n ih =>
    have hdrop : (batch.drop Server.maxBatch).length ≤ n := by
      rw [length_drop, Server.maxBatch]
      omega
    rw [pipelineFrom, execSegments_append, Server.serveFrom]
    split
    · next hnil =>
      subst hnil
      rw [take_nil, drop_nil, pipelineFrom_nil]
      rfl
    · split
      · next hq => rw [execSegments_quit hq, execSegments_quit hq]; rfl
      · rw [← ih hdrop]
        rfl

/-- One segment against its commands one by one, from states that are alike. -/
theorem segment_iff {seg : Segment C} (hseg : seg.Proper srv.readOnly) (hq : s.quit = false) (h : s.Alike s') :
    SameOutcome (srv.execSegment s seg) (srv.oneByOne seg.commands s') ↔ seg.Agrees srv s := by
  obtain ⟨hreplies, hstates⟩ : SameOutcome (srv.oneByOne seg.commands s) (srv.oneByOne seg.commands s') := oneByOne_congr h _
  have hmove : SameOutcome (srv.execSegment s seg) (srv.oneByOne seg.commands s') ↔
      SameOutcome (srv.execSegment s seg) (srv.oneByOne seg.commands s) := by
    constructor
    · exact fun ho => ⟨ho.1.trans hreplies.symm, ho.2.trans hstates.symm⟩
    · exact fun ho => ⟨ho.1.trans hreplies, ho.2.trans hstates⟩
  rw [hmove]
  cases seg with
  | gets ks => exact gets_iff hq hseg
  | sets kvs => exact sets_iff hq hseg.1 hseg.2.1 hseg.2.2
  | single c =>
    refine iff_of_true ?_ trivial
    rw [show (Segment.single c).commands = [c] from rfl, oneByOne_cons hq]
    exact ⟨rfl, State.Alike.refl _⟩

theorem segments_iff {segs : List (Segment C)} (hsegs : ∀ seg ∈ segs, seg.Proper srv.readOnly) (h : s.Alike s') :
    (∀ n, SameOutcome (srv.execSegments (segs.take n) s)
      (srv.oneByOne ((segs.take n).flatMap Segment.commands) s')) ↔ Agreed srv segs s := by
  induction segs generalizing s s' with
  | nil => exact iff_of_true (fun n => by rw [take_nil]; exact ⟨rfl, h⟩) trivial
  | cons seg segs ih =>
    rw [forall_mem_cons] at hsegs
    cases hq : s.quit with
    | true =>
      refine iff_of_true (fun n => ?_) fun hq' => ?_
      · rw [execSegments_quit hq, oneByOne_quit (h.quit ▸ hq)]
        exact ⟨rfl, h⟩
      · rw [hq] at hq'
        cases hq'
    | false =>
      have hseg := segment_iff hsegs.1 hq h
      -- the first segment and what comes after it
      have hcons : ∀ n, SameOutcome (srv.execSegments ((seg :: segs).take (n + 1)) s)
          (srv.oneByOne (((seg :: segs).take (n + 1)).flatMap Segment.commands) s') ↔
          SameOutcome ((srv.execSegment s seg).1 ++ (srv.execSegments (segs.take n) (srv.execSegment s seg).2).1,
              (srv.execSegments (segs.take n) (srv.execSegment s seg).2).2)
            ((srv.oneByOne seg.commands s').1 ++ (srv.oneByOne ((segs.take n).flatMap Segment.commands)
                (srv.oneByOne seg.commands s').2).1,
              (srv.oneByOne ((segs.take n).flatMap Segment.commands)
                (srv.oneByOne seg.commands s').2).2) := by
        intro n
        rw [take_succ_cons, execSegments_cons hq, flatMap_cons, oneByOne_append]
      constructor
      · intro hall hq'
        have hone : SameOutcome (srv.execSegment s seg) (srv.oneByOne seg.commands s') := by
          have := (hcons 0).1 (hall 1)
          simpa [Server.execSegments, Server.oneByOne] using this
        refine ⟨hseg.1 hone, (ih hsegs.2 hone.2).1 fun n => ?_⟩
        obtain ⟨hreplies, hstates⟩ := (hcons n).1 (hall (n + 1))
        refine ⟨?_, hstates⟩
        rw [hone.1] at hreplies
        exact append_cancel_left hreplies
      · intro hagreed n
        obtain ⟨hagrees, hrest⟩ := hagreed hq
        have hone := hseg.2 hagrees
        cases n with
        | zero => exact ⟨rfl, h⟩
        | succ n =>
          obtain ⟨hreplies, hstates⟩ := (ih hsegs.2 hone.2).2 hrest n
          refine (hcons n).2 ⟨?_, hstates⟩
          rw [hone.1, hreplies]

/-- **Pipelining.** After each segment a pipeline has given the replies and left the tables of its
commands one by one, exactly when every segment meets its condition; and then it is served as if
they were executed one by one. -/
theorem pipeline_transparent_iff {C W : Type} (srv : Server C W) (batch : List (Cmd C)) (s : State W) :
    ((∀ n, Transparent srv ((pipeline srv.readOnly batch).take n) s) ↔ Agreed srv (pipeline srv.readOnly batch) s) ∧
      (Agreed srv (pipeline srv.readOnly batch) s → SameOutcome (srv.serve batch s) (srv.oneByOne batch s)) := by
  obtain ⟨hflat, hproper⟩ := pipelineFrom_spec srv.readOnly (le_refl batch.length)
  have hiff := segments_iff hproper (State.Alike.refl s)
  refine ⟨hiff, fun hagreed => ?_⟩
  have hall := hiff.2 hagreed (pipelineFrom srv.readOnly batch.length batch).length
  rw [take_length, hflat] at hall
  rw [Server.serve, serveFrom_eq le_rfl]
  exact hall

def plainDb : Db where
  e := ⟨id, id, .plain⟩
  now := 0
  exceeds _ _ _ := false
  exceeds_congr _ _ _ _ := rfl
  textFault _ := none
  describe _ := []

def plainServer : Server Unit Unit where
  db := plainDb
  others := ⟨fun _ s => (.raw [], s), fun _ _ _ => .bulk none, fun _ _ _ h => ⟨rfl, h⟩, fun _ _ _ _ _ => rfl⟩
  readOnly := false

/-- The SET with the empty key fails the one after it. -/
theorem failed_set_fails_another :
    ¬ ∀ (srv : Server Unit Unit) (batch : List (Cmd Unit)) (s : State Unit), SameOutcome (srv.serve batch s) (srv.oneByOne batch s) := by
  intro h
  have hreplies := (h plainServer [.set [] [1], .set [97] [2]] ⟨fun _ => ⟨[], [], [], [], [], 1⟩, (), [], false⟩).1
  have hserved : (plainServer.serve [.set [] [1], .set [97] [2]] ⟨fun _ => ⟨[], [], [], [], [], 1⟩, (), [], false⟩).1 =
      [Server.coalescedError (.db shapeFault), Server.coalescedError (.db shapeFault)] := by rfl
  have hone : (plainServer.oneByOne [.set [] [1], .set [97] [2]] ⟨fun _ => ⟨[], [], [], [], [], 1⟩, (), [], false⟩).1 =
      [setReply (some (.db shapeFault)), .ok] := by rfl
  rw [hserved, hone] at hreplies
  simp [Server.coalescedError] at hreplies

end Pgvs3.Pipeline
