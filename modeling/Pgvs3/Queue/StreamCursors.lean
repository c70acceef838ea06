import Pgvs3.Conc.Sessions
import Pgvs3.Queue.StreamSteps
/-!
# Cursors, batches and the calls that hold them

`Held`: the tables agree with each other (`Cursors.Ok`), every call still sees the rows it has read
and locked (`Tx.Ok`), and no two receives hold the row of one consumer.
-/

namespace Pgvs3.Stream

open List Option Function Conc Cursors

variable {c n i base startAt : Nat} {s : Sub} {b x : Batch} {ticks : List Tick} {cur' cur : Cursors} {w w' : World} {seqs : List Nat}

namespace Cursors

variable {cur : Cursors}

def Known (cur : Cursors) (n : Nat) : Prop := (cur.snaps n).isSome

structure Ok (cur : Cursors) : Prop where
  inj : ∀ s ∈ cur.subs, ∀ s' ∈ cur.subs, s.consumer = s'.consumer → s = s'
  le : ∀ s ∈ cur.subs, s.lastTick ≤ s.nextTick
  known : ∀ s ∈ cur.subs, cur.Known s.lastTick ∧ cur.Known s.nextTick
  owner : ∀ b ∈ cur.batches, ∃ s ∈ cur.subs, s.consumer = b.consumer ∧ b.endTick ≤ s.nextTick
  span : ∀ b ∈ cur.batches, b.startTick < b.endTick ∧ cur.Known b.endTick
  ids : ∀ b ∈ cur.batches, b.id < cur.batchSeq
  nodup : (cur.batches.map (·.id)).Nodup
  tick : ∀ t ∈ cur.ticks, cur.snaps t.id = some t.snapshot
  below : ∀ n, cur.Known n → n < cur.tickSeq

theorem mem_of_sub? (h : cur.sub? c = some s) : s ∈ cur.subs ∧ s.consumer = c :=
  ⟨mem_of_find?_eq_some h, by simpa using find?_some h⟩

theorem sub?_eq_none : cur.sub? c = none ↔ ∀ s ∈ cur.subs, s.consumer ≠ c := by
  simp [sub?, find?_eq_none]

theorem Ok.sub?_eq (h : cur.Ok) (hs : s ∈ cur.subs) : cur.sub? s.consumer = some s := by
  cases hf : cur.sub? s.consumer with
  | none => exact absurd rfl (sub?_eq_none.1 hf s hs)
  | some s' =>
    obtain ⟨hs', hc⟩ := mem_of_sub? hf
    rw [h.inj s' hs' s hs hc]

theorem Ok.tick_known (h : cur.Ok) {t : Tick} (ht : t ∈ cur.ticks) : cur.Known t.id := by
  simp [Known, h.tick t ht]

theorem Ok.batch_eq (h : cur.Ok) {b' : Batch} (hb : b ∈ cur.batches) (hb' : b' ∈ cur.batches) (hid : b.id = b'.id) : b = b' :=
  inj_on_of_nodup_map h.nodup hb hb' hid

theorem Ok.dropTicks (h : cur.Ok) (hsub : ticks ⊆ cur.ticks) : Ok { cur with ticks } :=
  { h with tick := fun t ht => h.tick t (hsub ht) }

/-- What every step leaves to the other calls. -/
structure Keeps (cur cur' : Cursors) : Prop where
  snaps : ∀ n s, cur.snaps n = some s → cur'.snaps n = some s
  batchSeq : cur.batchSeq ≤ cur'.batchSeq
  subs : ∀ s ∈ cur.subs, ∃ s' ∈ cur'.subs, s'.consumer = s.consumer ∧ s.nextTick ≤ s'.nextTick
  batches : ∀ b ∈ cur'.batches, (∃ b₀ ∈ cur.batches, b₀.id = b.id ∧ b₀.consumer = b.consumer) ∨ cur.batchSeq ≤ b.id

theorem Keeps.known (h : cur.Keeps cur') (hn : cur.Known n) : cur'.Known n := by
  obtain ⟨s, hs⟩ := isSome_iff_exists.1 hn
  simp [Known, h.snaps n s hs]

theorem Keeps.trans {cur'' : Cursors} (h : cur.Keeps cur') (h' : cur'.Keeps cur'') : cur.Keeps cur'' := by
  refine ⟨fun n s hn => h'.snaps n s (h.snaps n s hn), Nat.le_trans h.batchSeq h'.batchSeq, fun s hs => ?_, fun b hb => ?_⟩
  · obtain ⟨s', hs', hc', hle'⟩ := h.subs s hs
    obtain ⟨s'', hs'', hc'', hle''⟩ := h'.subs s' hs'
    exact ⟨s'', hs'', hc''.trans hc', Nat.le_trans hle' hle''⟩
  · rcases h'.batches b hb with ⟨b', hb', hid', hc'⟩ | hnew
    · rcases h.batches b' hb' with ⟨b'', hb'', hid'', hc''⟩ | hnew
      · exact .inl ⟨b'', hb'', hid''.trans hid', hc''.trans hc'⟩
      · exact .inr (hid' ▸ hnew)
    · exact .inr (Nat.le_trans h.batchSeq hnew)

theorem Keeps.refl (cur : Cursors) : cur.Keeps cur :=
  ⟨fun _ _ h => h, le_rfl, fun s hs => ⟨s, hs, rfl, le_rfl⟩, fun b hb => .inl ⟨b, hb, rfl, rfl⟩⟩

end Cursors

/-! ## Places -/

/-- What the call has read is still so; `n` is the `next_tick` of its consumer. -/
def Place.Ok (cur : Cursors) (n : Nat) : Place → Prop
  | .owned | .idle => True
  | .newest startAt | .visible startAt | .stamped startAt _ _ => startAt = n
  | .ranged startAt endAt own | .collected startAt endAt own _ =>
    startAt = n ∧ startAt < endAt ∧ cur.Known endAt ∧ ∀ t ∈ own, t.id = endAt ∧ cur.snaps endAt = some t.snapshot

def Place.startAt? : Place → Option Nat
  | .owned | .idle => none
  | .newest n | .visible n | .stamped n _ _ | .ranged n _ _ | .collected n _ _ _ => some n

/-- A receive holds the row of its consumer, or has inserted it. -/
structure Receive.Ok (cur : Cursors) (r : Receive) (p : Place) : Prop where
  new : r.fresh = true → cur.sub? r.consumer = none
  known : cur.Known r.lastSeen
  /-- A normal receive starts at `last_tick`. -/
  normal : r.member = 0 → ∀ n ∈ p.startAt?, n = r.lastSeen
  row : ∃ s, r.sub cur = some s ∧ s.lastTick = r.lastSeen ∧ p.Ok cur s.nextTick

def Tx.Ok (cur : Cursors) : Tx → Prop
  | .placed _ target => cur.Known target
  | .asking r | .missing r => r.fresh = false
  | .latest r => r.fresh = false ∧ cur.Known r.lastSeen
  | .receive r p => r.Ok cur p
  | .ack b c => b < cur.batchSeq ∧ ∀ x ∈ cur.batches, x.id = b → x.consumer = c
  | .chained b c base chain => (b < cur.batchSeq ∧ ∀ x ∈ cur.batches, x.id = b → x.consumer = c) ∧
      ∀ x ∈ chain, base < x.endTick ∧ cur.Known x.endTick ∧ ∃ s ∈ cur.subs, s.consumer = c ∧ x.endTick ≤ s.nextTick
  | _ => True

variable {p : Place} {r : Receive} {t t' : Tx} {chain : List Batch} {endAt : Nat} {own : Option Tick}

theorem Place.Ok.keep (h : p.Ok cur n) (hk : cur.Keeps cur') : p.Ok cur' n := by
  cases p with
  | owned | idle => trivial
  | newest | visible | stamped => exact h
  | ranged | collected =>
    obtain ⟨hn, hlt, hknown, hown⟩ := h
    exact ⟨hn, hlt, hk.known hknown, fun t ht => ⟨(hown t ht).1, hk.snaps _ _ (hown t ht).2⟩⟩

theorem Tx.Ok.keep (h : t.Ok cur) (hk : cur.Keeps cur') (hrow : ∀ c, t.row = some c → cur'.sub? c = cur.sub? c) : t.Ok cur' := by
  have hbatch : ∀ b c, (b < cur.batchSeq ∧ ∀ x ∈ cur.batches, x.id = b → x.consumer = c) →
      b < cur'.batchSeq ∧ ∀ x ∈ cur'.batches, x.id = b → x.consumer = c := by
    rintro b c ⟨hb, hc⟩
    refine ⟨Nat.lt_of_lt_of_le hb hk.batchSeq, fun x hx hid => ?_⟩
    rcases hk.batches x hx with ⟨x₀, hx₀, hid₀, hc₀⟩ | hnew
    · rw [← hc₀]
      exact hc x₀ hx₀ (hid₀.trans hid)
    · omega
  cases t with
  | placed c target => exact hk.known h
  | latest r => exact ⟨h.1, hk.known h.2⟩
  | receive r p =>
    have hsub := hrow r.consumer rfl
    obtain ⟨s, hs, hlast, hp⟩ := h.row
    refine ⟨fun hf => hsub.trans (h.new hf), hk.known h.known, h.normal, s, ?_, hlast, hp.keep hk⟩
    simp only [Receive.sub] at hs ⊢
    rw [hsub]
    exact hs
  | ack b c => exact hbatch b c h
  | chained b c base chain =>
    refine ⟨hbatch b c h.1, fun x hx => ?_⟩
    obtain ⟨hlt, hknown, s, hs, hc, hle⟩ := h.2 x hx
    obtain ⟨s', hs', hc', hle'⟩ := hk.subs s hs
    exact ⟨hlt, hk.known hknown, s', hs', hc'.trans hc, Nat.le_trans hle hle'⟩
  | asking | missing => exact h
  | _ => trivial

theorem Receive.sub_le (h : cur.Ok) (hs : r.sub cur = some s) : s.lastTick ≤ s.nextTick := by
  unfold Receive.sub at hs
  split at hs
  · cases hs
    exact le_rfl
  · exact h.le s (mem_of_sub? hs).1

theorem Receive.Ok.next_known (h : r.Ok cur p) (hcur : cur.Ok) (hs : r.sub cur = some s) : cur.Known s.nextTick := by
  unfold Receive.sub at hs
  split at hs
  · cases hs
    exact h.known
  · exact (hcur.known s (mem_of_sub? hs).1).2

structure Held (w : World) : Prop where
  cur : w.cur.Ok
  txs : ∀ t ∈ w.txs, t.Ok w.cur
  row : Exclusive Tx.row w.txs

/-- A step of session `i`: it may change the rows that it holds and those that nobody holds. -/
theorem Held.step (h : Held w) (hi : w.txs[i]? = some t) (htxs : w'.txs = w.txs.set i t') (hcur : w'.cur.Ok) (hk : w.cur.Keeps w'.cur)
    (hsame : ∀ c, w'.cur.sub? c = w.cur.sub? c ∨ t.row = some c ∨ w.rowFree c) (hok : t'.Ok w'.cur)
    (hown : ∀ c, t'.row = some c → t.row = some c ∨ w.rowFree c) : Held w' := by
  refine ⟨hcur, fun u hu => ?_, ?_⟩
  · rw [htxs] at hu
    rcases mem_set_cases hu with rfl | ⟨j, hji, hj⟩
    · exact hok
    · have hmem := mem_of_getElem? hj
      refine (h.txs u hmem).keep hk fun c hc => ?_
      rcases hsame c with hsub | ht | hfree
      · exact hsub
      · exact absurd (h.row j i u t c hj hi hc ht) hji
      · exact absurd hc (hfree u hmem)
  · rw [htxs]
    exact h.row.set hi hown

theorem Held.stay (h : Held w) (hi : w.txs[i]? = some t) (htxs : w'.txs = w.txs.set i t')
    (hcur : w'.cur = w.cur) (hok : t'.Ok w.cur) (hown : ∀ c, t'.row = some c → t.row = some c ∨ w.rowFree c) : Held w' :=
  h.step hi htxs (hcur ▸ h.cur) (hcur ▸ Keeps.refl _) (fun _ => .inl (by rw [hcur])) (hcur ▸ hok) hown

/-! ## The chain of an ack -/

theorem mem_mark {batches : List Batch} {id : Nat} (h : x ∈ mark batches id) :
    ∃ b ∈ batches, b.id = x.id ∧ b.consumer = x.consumer ∧ b.startTick = x.startTick ∧ b.endTick = x.endTick ∧
      b.seqs = x.seqs ∧ (b.acked = true → x.acked = true) := by
  obtain ⟨b, hb, rfl⟩ := mem_map.1 h
  refine ⟨b, hb, ?_⟩
  split
  · exact ⟨rfl, rfl, rfl, rfl, rfl, fun _ => rfl⟩
  · exact ⟨rfl, rfl, rfl, rfl, rfl, fun h => h⟩

theorem mark_ids (batches : List Batch) (id : Nat) : (mark batches id).map (·.id) = batches.map (·.id) := by
  simp only [mark, List.map_map]
  refine map_congr_left fun b _ => ?_
  simp only [comp]
  split <;> rfl

/-- Every batch of the chain is acked and ends after the tick that the chain starts from. -/
theorem follow_spec {acked : List Batch} (hspan : ∀ b ∈ acked, b.startTick < b.endTick) {tick : Nat}
    (hx : x ∈ follow acked n tick) : x ∈ acked ∧ tick < x.endTick := by
  induction n generalizing tick with
  | zero => cases hx
  | succ n ih =>
    simp only [follow, mem_flatMap, mem_filter, decide_eq_true_eq] at hx
    obtain ⟨b, ⟨hb, rfl⟩, hx⟩ := hx
    have hlt := hspan b hb
    rcases mem_cons.1 hx with rfl | hx
    · exact ⟨hb, hlt⟩
    · obtain ⟨hmem, hend⟩ := ih hx
      exact ⟨hmem, Nat.lt_trans hlt hend⟩

theorem mem_chain (h : cur.Ok) {batch : Nat} (hx : x ∈ cur.chain batch c base) : base < x.endTick ∧ x.acked = true ∧
      ∃ b ∈ cur.batches, b.id = x.id ∧ b.consumer = c ∧ b.startTick = x.startTick ∧ b.endTick = x.endTick := by
  have hspan : ∀ b ∈ (mark cur.batches batch).filter fun b => b.consumer = c ∧ b.acked, b.startTick < b.endTick := by
    intro b hb
    obtain ⟨b₀, hb₀, -, -, hstart, hend, -⟩ := mem_mark (mem_filter.1 hb).1
    rw [← hstart, ← hend]
    exact (h.span b₀ hb₀).1
  obtain ⟨hmem, hlt⟩ := follow_spec hspan hx
  obtain ⟨hmark, hacked⟩ := mem_filter.1 hmem
  simp only [decide_eq_true_eq] at hacked
  obtain ⟨b, hb, hid, hc, hstart, hend, -⟩ := mem_mark hmark
  exact ⟨hlt, hacked.2, b, hb, hid, hc.trans hacked.1, hstart, hend⟩

theorem chainEnd_mem (hne : chain ≠ []) : ∃ x ∈ chain, x.endTick = chainEnd chain := by
  unfold chainEnd
  induction chain with
  | nil => exact absurd rfl hne
  | cons y chain ih =>
    simp only [map_cons, foldr_cons]
    by_cases hchain : chain = []
    · subst hchain
      exact ⟨y, mem_cons_self, by simp⟩
    · obtain ⟨x, hx, hend⟩ := ih hchain
      rcases Nat.le_total y.endTick ((chain.map (·.endTick)).foldr max 0) with hle | hle
      · exact ⟨x, mem_cons_of_mem _ hx, by rw [hend, Nat.max_eq_right hle]⟩
      · exact ⟨y, mem_cons_self, (Nat.max_eq_left hle).symm⟩

/-! ## Steps -/

theorem held_stage (h : Held w) (hi : w.txs[i]? = some t) (hs : Stage w t t') : Held (w.set i t') := by
  have hok := h.txs t (mem_of_getElem? hi)
  cases hs with
  | append | retries | subscribe | prune | stop | due => exact h.stay hi rfl rfl trivial nofun
  | asking c m limit began hr => exact h.stay hi rfl rfl rfl nofun
  | ack b hb =>
    refine h.stay hi rfl rfl ⟨h.cur.ids b hb, fun x hx hid => ?_⟩ nofun
    rw [h.cur.batch_eq hx hb hid]
  | placed c fromTick t ht => exact h.stay hi rfl rfl (h.cur.tick_known ht) nofun
  | owned r s hsub hfree =>
    refine h.stay hi rfl rfl ?_ fun c hc => .inr (some.inj hc ▸ hfree)
    have hf : r.fresh = false := hok
    refine ⟨fun hf' => ?_, (h.cur.known s (mem_of_sub? hsub).1).1, nofun, s, ?_, rfl, trivial⟩
    · rw [show r.fresh = true from hf'] at hf
      cases hf
    · simpa [Receive.sub, hf] using hsub
  | missing r => exact h.stay hi rfl rfl hok nofun
  | latest r t ht => exact h.stay hi rfl rfl ⟨hok, h.cur.tick_known ht⟩ nofun
  | entered r hsub hfree =>
    refine h.stay hi rfl rfl ?_ fun c hc => .inr (some.inj hc ▸ hfree)
    exact ⟨fun _ => hsub, hok.2, nofun, ⟨r.consumer, r.lastSeen, r.lastSeen⟩, by simp [Receive.sub], rfl, trivial⟩
  | idle r =>
    refine h.stay hi rfl rfl ?_ fun c hc => .inl hc
    exact ⟨hok.new, hok.known, nofun, by simpa [Place.Ok] using hok.row⟩
  | ranged r s t hsub hactive ht hlt =>
    refine h.stay hi rfl rfl ?_ fun c hc => .inl hc
    obtain ⟨s', hs', hlast, -⟩ := hok.row
    cases hsub.symm.trans hs'
    have hle := Receive.sub_le h.cur hsub
    refine ⟨hok.new, hok.known, fun hm n hn => ?_, s, hsub, hlast, Nat.max_eq_left (hlast ▸ hle), hlt, h.cur.tick_known ht, nofun⟩
    cases hn
    omega
  | newest r s hsub hactive =>
    refine h.stay hi rfl rfl ?_ fun c hc => .inl hc
    obtain ⟨s', hs', hlast, -⟩ := hok.row
    cases hsub.symm.trans hs'
    have hle := Receive.sub_le h.cur hsub
    refine ⟨hok.new, hok.known, fun hm n hn => ?_, s, hsub, hlast, Nat.max_eq_left (hlast ▸ hle)⟩
    cases hn
    omega
  | visible | stamped | collected => exact h.stay hi rfl rfl ⟨hok.new, hok.known, hok.normal, hok.row⟩ fun c hc => .inl hc
  | chained b c s hsub =>
    refine h.stay hi rfl rfl ⟨hok, fun x hx => ?_⟩ nofun
    obtain ⟨hlt, -, b', hb', -, hc, -, hend⟩ := mem_chain h.cur hx
    obtain ⟨s', hs', hc', hle⟩ := h.cur.owner b' hb'
    exact ⟨hlt, hend ▸ (h.cur.span b' hb').2, s', hs', hc'.trans hc, hend ▸ hle⟩

namespace Cursors

variable {cur : Cursors} {tick : Nat}

theorem sub?_append {c' : Nat} (hne : c' ≠ c) : sub? { cur with subs := cur.subs ++ [⟨c, tick, tick⟩] } c' = cur.sub? c' := by
  simp [sub?, find?_append, Ne.symm hne]

variable {f : Sub → Sub}

theorem sub?_map (cur : Cursors) (hf : ∀ s, (f s).consumer = s.consumer) (hsubs : cur'.subs = cur.subs.map f) (c : Nat) :
    cur'.sub? c = (cur.sub? c).map f := by
  have hcomp : ((fun s : Sub => decide (s.consumer = c)) ∘ f) = fun s => decide (s.consumer = c) := by
    funext s
    simp [hf]
  rw [sub?, sub?, hsubs, find?_map, hcomp]

theorem Ok.enter (h : cur.Ok) (hnew : cur.sub? c = none) (hknown : cur.Known tick) :
    Ok { cur with subs := cur.subs ++ [⟨c, tick, tick⟩] } := by
  have hmem : ∀ s, s ∈ cur.subs ++ [⟨c, tick, tick⟩] → s ∈ cur.subs ∨ s = ⟨c, tick, tick⟩ := by simp
  have hother := sub?_eq_none.1 hnew
  refine { h with inj := fun s hs s' hs' hc => ?_, le := fun s hs => ?_, known := fun s hs => ?_, owner := fun b hb => ?_ }
  · rcases hmem s hs with hs | rfl <;> rcases hmem s' hs' with hs' | rfl
    · exact h.inj s hs s' hs' hc
    · exact absurd hc (hother s hs)
    · exact absurd hc.symm (hother s' hs')
    · rfl
  · rcases hmem s hs with hs | rfl
    · exact h.le s hs
    · exact le_rfl
  · rcases hmem s hs with hs | rfl
    · exact h.known s hs
    · exact ⟨hknown, hknown⟩
  · obtain ⟨s, hs, hc, hle⟩ := h.owner b hb
    exact ⟨s, mem_append_left _ hs, hc, hle⟩

theorem Keeps.enter (cur : Cursors) (c tick : Nat) : cur.Keeps { cur with subs := cur.subs ++ [⟨c, tick, tick⟩] } :=
  { Keeps.refl cur with subs := fun s hs => ⟨s, mem_append_left _ hs, rfl, le_rfl⟩ }

theorem Ok.newTick (h : cur.Ok) (s : Snapshot) :
    Ok { cur with tickSeq := cur.tickSeq + 1, snaps := update cur.snaps cur.tickSeq (some s) } ∧
      cur.Keeps { cur with tickSeq := cur.tickSeq + 1, snaps := update cur.snaps cur.tickSeq (some s) } := by
  have hsnaps : ∀ n s', cur.snaps n = some s' → update cur.snaps cur.tickSeq (some s) n = some s' := by
    intro n s' hn
    have hlt : n < cur.tickSeq := h.below n (by simp [Known, hn])
    rw [update_of_ne (Nat.ne_of_lt hlt)]
    exact hn
  have hk : cur.Keeps { cur with tickSeq := cur.tickSeq + 1, snaps := update cur.snaps cur.tickSeq (some s) } :=
    { Keeps.refl cur with snaps := hsnaps }
  refine ⟨{ h with known := fun s hs => ?_, span := fun b hb => ?_, tick := fun t ht => ?_, below := fun n hn => ?_ }, hk⟩
  · exact ⟨hk.known (h.known s hs).1, hk.known (h.known s hs).2⟩
  · exact ⟨(h.span b hb).1, hk.known (h.span b hb).2⟩
  · exact hsnaps _ _ (h.tick t ht)
  · by_cases hnew : n = cur.tickSeq
    · exact hnew ▸ Nat.lt_succ_self _
    · simp only [Known, update_of_ne hnew] at hn
      exact Nat.lt_succ_of_lt (h.below n hn)

theorem Ok.move (h : cur.Ok) (hc : ∀ s, (f s).consumer = s.consumer)
    (hf : ∀ s ∈ cur.subs, s.nextTick ≤ (f s).nextTick ∧ (f s).lastTick ≤ (f s).nextTick ∧
      cur.Known (f s).lastTick ∧ cur.Known (f s).nextTick) :
    Ok { cur with subs := cur.subs.map f } := by
  have hmem : ∀ x, x ∈ cur.subs.map f → ∃ s ∈ cur.subs, f s = x := fun x => mem_map.1
  refine { h with inj := fun x hx y hy hxy => ?_, le := fun x hx => ?_, known := fun x hx => ?_, owner := fun b hb => ?_ }
  · obtain ⟨s, hs, rfl⟩ := hmem x hx
    obtain ⟨s', hs', rfl⟩ := hmem y hy
    rw [hc, hc] at hxy
    rw [h.inj s hs s' hs' hxy]
  · obtain ⟨s, hs, rfl⟩ := hmem x hx
    exact (hf s hs).2.1
  · obtain ⟨s, hs, rfl⟩ := hmem x hx
    exact (hf s hs).2.2
  · obtain ⟨s, hs, hsc, hle⟩ := h.owner b hb
    exact ⟨f s, mem_map_of_mem hs, (hc s).trans hsc, Nat.le_trans hle (hf s hs).1⟩

theorem Keeps.move (hc : ∀ s, (f s).consumer = s.consumer) (hf : ∀ s ∈ cur.subs, s.nextTick ≤ (f s).nextTick) :
    cur.Keeps { cur with subs := cur.subs.map f } :=
  { Keeps.refl cur with subs := fun s hs => ⟨f s, mem_map_of_mem hs, hc s, hf s hs⟩ }

theorem Ok.addTicks (h : cur.Ok) (hts : ∀ t ∈ ticks, cur.snaps t.id = some t.snapshot) : Ok { cur with ticks := cur.ticks ++ ticks } := by
  refine { h with tick := fun t ht => ?_ }
  rcases mem_append.1 ht with ht | ht
  · exact h.tick t ht
  · exact hts t ht

theorem Ok.addBatch (h : cur.Ok) (hid : b.id = cur.batchSeq) (hspan : b.startTick < b.endTick ∧ cur.Known b.endTick)
    (howner : ∃ s ∈ cur.subs, s.consumer = b.consumer ∧ b.endTick ≤ s.nextTick) :
    Ok { cur with batches := cur.batches ++ [b], batchSeq := cur.batchSeq + 1 } := by
  have hmem : ∀ x, x ∈ cur.batches ++ [b] → x ∈ cur.batches ∨ x = b := by simp
  refine { h with owner := fun x hx => ?_, span := fun x hx => ?_, ids := fun x hx => ?_, nodup := ?_ }
  · rcases hmem x hx with hx | rfl
    · exact h.owner x hx
    · exact howner
  · rcases hmem x hx with hx | rfl
    · exact h.span x hx
    · exact hspan
  · rcases hmem x hx with hx | rfl
    · exact Nat.lt_succ_of_lt (h.ids x hx)
    · exact hid ▸ Nat.lt_succ_self _
  · rw [map_append, nodup_append]
    refine ⟨h.nodup, by simp, ?_⟩
    intro x hx y hy
    obtain ⟨b', hb', rfl⟩ := mem_map.1 hx
    rw [map_singleton, mem_singleton] at hy
    rw [hy, hid]
    exact Nat.ne_of_lt (h.ids b' hb')

theorem Keeps.addBatch (hid : b.id = cur.batchSeq) :
    cur.Keeps { cur with batches := cur.batches ++ [b], batchSeq := cur.batchSeq + 1 } := by
  refine { Keeps.refl cur with batchSeq := Nat.le_succ _, batches := ?_ }
  exact forall_push (fun x hx => .inl ⟨x, hx, rfl, rfl⟩) (.inr (Nat.le_of_eq hid.symm))

theorem Ok.dropBatches (h : cur.Ok) (id : Nat) (f : Batch → Bool) : Ok { cur with batches := (mark cur.batches id).filter f } := by
  have hmem : ∀ x, x ∈ (mark cur.batches id).filter f →
      ∃ b ∈ cur.batches, b.id = x.id ∧ b.consumer = x.consumer ∧ b.startTick = x.startTick ∧ b.endTick = x.endTick := by
    intro x hx
    obtain ⟨b, hb, hid, hc, hs, he, -⟩ := mem_mark (mem_filter.1 hx).1
    exact ⟨b, hb, hid, hc, hs, he⟩
  refine { h with owner := fun x hx => ?_, span := fun x hx => ?_, ids := fun x hx => ?_, nodup := ?_ }
  · obtain ⟨b, hb, -, hc, -, he⟩ := hmem x hx
    rw [← hc, ← he]
    exact h.owner b hb
  · obtain ⟨b, hb, -, -, hs, he⟩ := hmem x hx
    rw [← hs, ← he]
    exact h.span b hb
  · obtain ⟨b, hb, hid, -⟩ := hmem x hx
    rw [← hid]
    exact h.ids b hb
  · have hsub := (filter_sublist (p := f) (l := mark cur.batches id)).map (·.id)
    rw [mark_ids] at hsub
    exact h.nodup.sublist hsub

theorem Keeps.dropBatches (cur : Cursors) (id : Nat) (f : Batch → Bool) :
    cur.Keeps { cur with batches := (mark cur.batches id).filter f } := by
  refine { Keeps.refl cur with batches := fun x hx => ?_ }
  obtain ⟨b, hb, hid, hc, -⟩ := mem_mark (mem_filter.1 hx).1
  exact .inl ⟨b, hb, hid, hc⟩

end Cursors

/-! ## Steps that write -/

theorem held_enter {target : Nat} (h : Held w) (hi : w.txs[i]? = some (.placed c target)) (hsub : w.cur.sub? c = none)
    (hfree : w.rowFree c) : Held ((w.enter c target).set i .idle) := by
  have hknown : w.cur.Known target := h.txs _ (mem_of_getElem? hi)
  refine h.step hi rfl (h.cur.enter hsub hknown) (Keeps.enter ..) (fun c' => ?_) trivial nofun
  by_cases hc : c' = c
  · exact .inr (.inr (hc ▸ hfree))
  · exact .inl (sub?_append hc)

theorem enrol_spec (h : Held w) (hok : r.Ok w.cur p) :
    (w.enrol r).cur.Ok ∧ w.cur.Keeps (w.enrol r).cur ∧ (∀ c, c ≠ r.consumer → (w.enrol r).cur.sub? c = w.cur.sub? c) ∧
      ∃ s ∈ (w.enrol r).cur.subs, s.consumer = r.consumer ∧ s.lastTick = r.lastSeen ∧ p.Ok w.cur s.nextTick := by
  obtain ⟨s, hs, hlast, hp⟩ := hok.row
  unfold World.enrol Receive.sub at *
  by_cases hf : r.fresh = true
  · rw [if_pos hf] at hs ⊢
    cases hs
    exact ⟨h.cur.enter (hok.new hf) hok.known, Keeps.enter .., fun c hc => sub?_append hc, _,
      mem_append_right _ (mem_singleton.2 rfl), rfl, rfl, hp⟩
  · rw [if_neg hf] at hs ⊢
    obtain ⟨hmem, hc⟩ := mem_of_sub? hs
    exact ⟨h.cur, Keeps.refl _, fun _ _ => rfl, s, hmem, hc, hlast, hp⟩

theorem enrol_txs (w : World) (r : Receive) : (w.enrol r).txs = w.txs := by
  unfold World.enrol
  split <;> rfl

theorem enrol_set_txs (w : World) (r : Receive) (i : Nat) : ((w.enrol r).set i .idle).txs = w.txs.set i .idle :=
  congrArg (·.set i .idle) (enrol_txs w r)

theorem held_enrol (h : Held w) (hi : w.txs[i]? = some (.receive r p)) : Held ((w.enrol r).set i .idle) := by
  obtain ⟨hcur, hk, hsame, -⟩ := enrol_spec h (h.txs _ (mem_of_getElem? hi))
  refine h.step hi (enrol_set_txs ..) hcur hk (fun c => ?_) trivial nofun
  by_cases hc : c = r.consumer
  · exact .inr (.inl (by rw [hc]; rfl))
  · exact .inl (hsame c hc)

theorem held_newTick {m : Nat} {s : Snapshot} (h : Held w)
    (hi : w.txs[i]? = some (.receive r (.stamped startAt s m))) : Held (w.newTick i r startAt s) := by
  have hok : r.Ok w.cur (.stamped startAt s m) := h.txs _ (mem_of_getElem? hi)
  obtain ⟨hcur, hk⟩ := h.cur.newTick s
  have hnew : (w.newTick i r startAt s).cur.snaps w.cur.tickSeq = some s := update_self ..
  refine h.step hi rfl hcur hk (fun c => .inl rfl) ?_ fun c hc => .inl hc
  obtain ⟨x, hx, hlast, hstart⟩ := hok.row
  -- the new tick comes after every tick that is known, and the cursor is one
  have hlt : startAt < w.cur.tickSeq := by
    rw [show startAt = x.nextTick from hstart]
    exact h.cur.below _ (hok.next_known h.cur hx)
  refine ⟨hok.new, hk.known hok.known, hok.normal, x, hx, hlast, hstart, hlt, ?_, fun t ht => ?_⟩
  · simp [Known, hnew]
  · cases ht
    exact ⟨rfl, hnew⟩

theorem advance_consumer (w : World) (r : Receive) (endAt : Nat) (seqs : List Nat) (s : Sub) :
    (w.advance r endAt seqs s).consumer = s.consumer := by
  unfold World.advance
  split <;> rfl

theorem advance_self (w : World) (endAt : Nat) (seqs : List Nat) (hc : s.consumer = r.consumer) :
    (w.advance r endAt seqs s).nextTick = endAt ∧
      ((w.advance r endAt seqs s).lastTick = endAt ∨ (w.advance r endAt seqs s).lastTick = s.lastTick) := by
  unfold World.advance
  rw [if_pos hc]
  refine ⟨rfl, ?_⟩
  split
  · exact .inl rfl
  · exact .inr rfl

theorem advance_other (hc : s.consumer ≠ r.consumer) : w.advance r endAt seqs s = s := by
  simp [World.advance, hc]

theorem settle_spec (i : Nat) (h : Held w) (hok : r.Ok w.cur (.collected startAt endAt own seqs)) :
    (w.settle i r startAt endAt own seqs).cur.Ok ∧ w.cur.Keeps (w.settle i r startAt endAt own seqs).cur := by
  obtain ⟨hcur, hk, -, s, hs, hc, -, rfl, hlt, hknown, hown⟩ := enrol_spec h hok
  have hf : ∀ x ∈ (w.enrol r).cur.subs, x.nextTick ≤ (w.advance r endAt seqs x).nextTick ∧
      (w.advance r endAt seqs x).lastTick ≤ (w.advance r endAt seqs x).nextTick ∧
      (w.enrol r).cur.Known (w.advance r endAt seqs x).lastTick ∧ (w.enrol r).cur.Known (w.advance r endAt seqs x).nextTick := by
    intro x hx
    by_cases hxc : x.consumer = r.consumer
    · -- the row that the call holds
      cases hcur.inj x hx s hs (hxc.trans hc.symm)
      have hle := hcur.le s hs
      have hend := hk.known hknown
      obtain ⟨hnext, hlast⟩ := advance_self w endAt seqs hc
      rw [hnext]
      refine ⟨Nat.le_of_lt hlt, ?_, ?_, hend⟩
      · rcases hlast with hlast | hlast <;> omega
      · rcases hlast with hlast | hlast
        · rw [hlast]
          exact hend
        · rw [hlast]
          exact (hcur.known s hs).1
    · rw [advance_other hxc]
      exact ⟨le_rfl, hcur.le x hx, hcur.known x hx⟩
  let cur₁ : Cursors := { (w.enrol r).cur with
    ticks := (w.enrol r).cur.ticks ++ own.toList, subs := (w.enrol r).cur.subs.map (w.advance r endAt seqs) }
  have hticks : ∀ t ∈ own.toList, (w.enrol r).cur.snaps t.id = some t.snapshot := by
    intro t ht
    obtain ⟨hid, hsnap⟩ := hown t (mem_toList.1 ht)
    rw [hid]
    exact hk.snaps _ _ hsnap
  have hcur₁ : cur₁.Ok := (hcur.addTicks hticks).move (advance_consumer w r endAt seqs) hf
  have hk₁ : w.cur.Keeps cur₁ := by
    refine hk.trans ?_
    exact { Keeps.move (advance_consumer w r endAt seqs) (fun x hx => (hf x hx).1) with }
  by_cases hseqs : seqs = []
  · have heq : (w.settle i r s.nextTick endAt own seqs).cur = cur₁ := by
      simp [World.settle, cur₁, hseqs]
    rw [heq]
    exact ⟨hcur₁, hk₁⟩
  · have heq : (w.settle i r s.nextTick endAt own seqs).cur = { cur₁ with
        batches := cur₁.batches ++
          [⟨cur₁.batchSeq, r.consumer, r.member, s.nextTick, endAt, false, seqs⟩]
        batchSeq := cur₁.batchSeq + 1 } := by
      simp [World.settle, cur₁, hseqs]
    rw [heq]
    refine ⟨hcur₁.addBatch rfl ⟨hlt, hk₁.known hknown⟩ ?_, hk₁.trans (Keeps.addBatch rfl)⟩
    exact ⟨_, mem_map_of_mem hs, (advance_consumer ..).trans hc, Nat.le_of_eq (advance_self w endAt seqs hc).1.symm⟩

theorem settle_txs (w : World) (i : Nat) (r : Receive) (startAt endAt : Nat) (own : Option Tick) (seqs : List Nat) :
    (w.settle i r startAt endAt own seqs).txs = w.txs.set i .idle := by
  simp [World.settle, World.set, enrol_txs]

theorem settle_subs (w : World) (i : Nat) (r : Receive) (startAt endAt : Nat) (own : Option Tick) (seqs : List Nat) :
    (w.settle i r startAt endAt own seqs).cur.subs = (w.enrol r).cur.subs.map (w.advance r endAt seqs) := rfl

theorem held_settle (h : Held w)
    (hi : w.txs[i]? = some (.receive r (.collected startAt endAt own seqs))) : Held (w.settle i r startAt endAt own seqs) := by
  have hok : r.Ok w.cur (.collected startAt endAt own seqs) := h.txs _ (mem_of_getElem? hi)
  obtain ⟨hcur, hk⟩ := settle_spec i h hok
  obtain ⟨-, -, hsame, -⟩ := enrol_spec h hok
  refine h.step hi (settle_txs ..) hcur hk (fun c => ?_) trivial nofun
  by_cases hc : c = r.consumer
  · exact .inr (.inl (by rw [hc]; rfl))
  · refine .inl ?_
    rw [sub?_map _ (advance_consumer w r endAt seqs) (settle_subs ..), hsame c hc]
    cases hs : w.cur.sub? c with
    | none => rfl
    | some s =>
      rw [map_some, advance_other]
      rw [(mem_of_sub? hs).2]
      exact hc

theorem held_ackEnd {b : Nat} (h : Held w) (hi : w.txs[i]? = some (.chained b c base chain))
    (hfree : chain = [] ∨ w.rowFree c) : Held (w.ackEnd i b c chain) := by
  have hok : (_ ∧ _) ∧ _ := h.txs _ (mem_of_getElem? hi)
  by_cases hne : chain = []
  · have heq : (w.ackEnd i b c chain).cur = { w.cur with batches := (mark w.cur.batches b).filter (·.id ∉ chain.map (·.id)) } := by
      simp [World.ackEnd, hne]
    refine h.step hi rfl ?_ ?_ (fun c' => .inl ?_) trivial nofun
    · rw [heq]
      exact h.cur.dropBatches _ _
    · rw [heq]
      exact Keeps.dropBatches ..
    · rw [heq]
      rfl
  · let f : Sub → Sub := fun s =>
      if s.consumer = c then { s with lastTick := chainEnd chain, nextTick := max s.nextTick (chainEnd chain) } else s
    have hf : ∀ s, (f s).consumer = s.consumer := by
      intro s
      simp only [f]
      split <;> rfl
    obtain ⟨x, hx, hend⟩ := chainEnd_mem hne
    obtain ⟨-, hknown, s, hs, hc, hle⟩ := hok.2 x hx
    rw [hend] at hknown hle
    have hmove : ∀ x ∈ w.cur.subs, x.nextTick ≤ (f x).nextTick ∧ (f x).lastTick ≤ (f x).nextTick ∧
        w.cur.Known (f x).lastTick ∧ w.cur.Known (f x).nextTick := by
      intro x hx
      simp only [f]
      split
      · next hxc =>
        -- the chain ends at or before the cursor
        cases h.cur.inj x hx s hs (hxc.trans hc.symm)
        simp only [Nat.max_eq_left hle]
        exact ⟨le_rfl, hle, hknown, (h.cur.known s hs).2⟩
      · exact ⟨le_rfl, h.cur.le x hx, h.cur.known x hx⟩
    have heq : (w.ackEnd i b c chain).cur =
        { w.cur with subs := w.cur.subs.map f, batches := (mark w.cur.batches b).filter (·.id ∉ chain.map (·.id)) } := by
      simp [World.ackEnd, hne, f]
    refine h.step hi rfl ?_ ?_ (fun c' => ?_) trivial nofun
    · rw [heq]
      exact (h.cur.dropBatches b _).move hf hmove
    · rw [heq]
      exact (Keeps.dropBatches w.cur b _).trans (Keeps.move hf fun x hx => (hmove x hx).1)
    · by_cases hc' : c' = c
      · exact .inr (.inr (hc' ▸ hfree.resolve_left hne))
      · refine .inl ?_
        rw [heq, sub?_map w.cur hf rfl]
        cases hs' : w.cur.sub? c' with
        | none => rfl
        | some s' =>
          have hne' : s'.consumer ≠ c := by
            rw [(mem_of_sub? hs').2]
            exact hc'
          simp [f, if_neg hne']

theorem Held.dropTicks (h : Held w) (hsub : ticks ⊆ w.cur.ticks) (hcur : w'.cur = { w.cur with ticks })
    (htxs : w'.txs = w.txs) : Held w' := by
  have hk : w.cur.Keeps w'.cur := by
    rw [hcur]
    exact { Keeps.refl w.cur with }
  refine ⟨hcur ▸ h.cur.dropTicks hsub, fun t ht => ?_, htxs ▸ h.row⟩
  exact (h.txs t (htxs ▸ ht)).keep hk fun c _ => by rw [hcur]; rfl

theorem Held.same (h : Held w) (hcur : w'.cur = w.cur) (htxs : w'.txs = w.txs) : Held w' :=
  h.dropTicks (List.Subset.refl _) hcur htxs

theorem keptTicks_subset (w : World) (target began : Nat) : w.keptTicks target began ⊆ w.cur.ticks :=
  fun _ ht => (mem_filter.1 (mem_filter.1 ht).1).1

theorem held_next {a : Act} (h : Held w) (hs : Step w a w') : Held w' := by
  cases hs with
  | connect =>
    exact ⟨h.cur, forall_push h.txs trivial, h.row.push rfl⟩
  | elapse | nack | rotate | check | giveUp => exact h.same rfl rfl
  | stage _ i hi hstage _ => exact held_stage h hi hstage
  | nothing => exact h
  | other _ _ hi | write _ _ _ _ hi | commit _ _ _ _ hi => exact h.stay hi rfl rfl trivial nofun
  | enter i c target hi hsub hfree => exact held_enter h hi hsub hfree
  | enrol i r p hi => exact held_enrol h hi
  | newTick i r startAt s m hi => exact held_newTick h hi
  | settle i r startAt endAt own seqs hi => exact held_settle h hi
  | ackEnd i b c base chain hi hfree => exact held_ackEnd h hi hfree
  | prune i ids hi =>
    have hstop : Held (w.set i .idle) := h.stay hi rfl rfl trivial nofun
    exact hstop.dropTicks (fun _ ht => (mem_filter.1 ht).1) rfl rfl
  | truncate target x began hr => exact h.dropTicks (keptTicks_subset w target began) rfl rfl

theorem held_init (maxRetries retention : Nat) : Held (World.init maxRetries retention) := by
  refine ⟨⟨nofun, nofun, nofun, nofun, nofun, nofun, nodup_nil, ?_, ?_⟩, nofun, .nil _⟩
  · intro t ht
    rw [mem_singleton.1 ht]
    rfl
  · intro n hn
    by_cases hone : n = 1
    · rw [hone]
      exact Nat.lt_succ_self 1
    · simp [Known, World.init, hone] at hn

end Pgvs3.Stream
