import Pgvs3.Tier.Routine
/-!
# An object in view: history, conditions, single statements

`Visible`: the write-back row is live and holds a pending body, or the origin has the object and no
tombstone of the read cache stands in front of it. `policy` says which steps may take the write-back
row away. Each kind of statement keeps the invariant `Inv` and leaves the other requests what they
rely on (`Mono`).
-/

namespace Pgvs3.Tier

open Conc Sys List Option

inductive IsUse (N : Naming) : Req Res → Prop
  | upload (g : Gateway) (body : Body) (pre : Precondition) : IsUse N (uploadWithOptions N g body pre)
  | complete (g : Gateway) (body : Body) (pre : Precondition) : IsUse N (completeUpload N g body pre)
  | flush (g : Gateway) (owner : Nat) : IsUse N (runPendingOnce g owner)
  | head (g : Gateway) : IsUse N (head g)
  | openObject (g : Gateway) (n : Nat) (rng : ByteRange) : IsUse N (openObject N g n rng)

namespace Presence

/-! ## History and conditions -/

/-- A write has published its row (`published`), has been acknowledged (`acked`); which requests
began after that (`since`) and which have been told that there is no object (`denied`); one that
began after it has answered NotFound (`missed`). -/
structure Hist where
  published : Bool
  acked : Bool
  since : Nat → Option Bool
  denied : Nat → Bool
  missed : Bool

def Hist.init : Hist := ⟨false, false, fun _ => none, fun _ => false, false⟩

/-- The request takes its first statement, or a later one. -/
def Hist.mark (h : Hist) (t : Nat) : Hist := { h with since := upd h.since t (some ((h.since t).getD h.acked)) }

def Hist.deny (h : Hist) (t : Nat) (b : Bool) : Hist := if b then { h with denied := upd h.denied t true } else h

def Hist.learn (h : Hist) (t : Nat) : (s : Stmt) → s.Ans → Hist
  | .rows, some s => h.deny t (s.lookup.any fun x => (versionOf x.2).isDeleted)
  | .originRead, .missing => h.deny t true
  | .db (.publish .write _ _ _ _), some (some _) => { h with published := true }
  | .db (.complete _ _ _ _ _ _), some _ => { h with published := true }
  | _, _ => h

def Res.isWritten : Res → Bool
  | .written _ => true
  | _ => false

def observer (N : Naming) : Observer (sys N) Hist where
  step t s r _ _ h := (h.mark t).learn t s r
  env _ _ _ h := h
  done t a _ h :=
    { h with
      acked := h.acked || Res.isWritten a
      since := upd h.since t none
      denied := upd h.denied t false
      missed := h.missed || (a == .notFound && h.since t == some true) }

def stands (w : World) : Bool := w.wb.any (·.live w.now)

def masked (w : World) : Bool := w.rc.any fun r => r.live w.now && (versionOf r).isDeleted

/-- The write-back row stops being live only if the origin has the object and no tombstone is left;
a tombstone comes alive only under a live write-back row. -/
def keeps (w w' : World) : Bool :=
  (!stands w || stands w' || (w.origin.isSome && !masked w')) && (!masked w' || masked w || stands w')

def publishes : Update → Bool
  | .publish .write _ _ _ _ | .complete _ _ _ _ _ _ => true
  | _ => false

/-- An update keeps the object in view, and a publication is not too late for its own expiry. -/
def Gentle (x : World × Hist) (u : Update) : Prop :=
  (x.2.published = true → keeps x.1 (u.apply x.1).2 = true) ∧ (publishes u = true → stands (u.apply x.1).2 = true)

/-- Any requests but deletes, any sweep; nobody deletes at the origin. -/
def everyRun (N : Naming) : (observer N).sys.Policy where
  spawn _ _ p := IsUse N p
  step _ _ _ _ := True
  env e _ := e ≠ .originGone

/-- The same, with the object kept in view. -/
def policy (N : Naming) : (observer N).sys.Policy where
  spawn _ _ p := IsUse N p
  step _ s x r :=
    match s, r with
    | .db u, some _ | .attempt u, some _ => Gentle x u
    -- the row that an Open has read has not expired when it opens the body
    | .stillLive _, some false => False
    -- nobody joins a call that was told before the write that there is no object
    | .join k, _ => x.2.published = true → ((World.flights x.1 k).all fun f => !x.2.denied f.leader) = true
    | _, _ => True
  env e x := e ≠ .originGone ∧ (x.2.published = true → (env N e x.1).all (keeps x.1) = true)

/-! ## The invariant -/

/-- The object can be seen: in the write-back row, or at the origin with nothing in front of it. -/
structure Visible (w : World) : Prop where
  alive : ∀ r ∈ w.wb, (versionOf r).isDeleted = false
  backed : (stands w = true ∧ ∃ r ∈ w.wb, (versionOf r).isPending = true) ∨
    (w.origin.isSome = true ∧ (stands w = true ∨ masked w = false))

def Clear (t : Nat) (w : World) : Prop := (∀ k f, w.flights k = some f → t ∉ f.waiters) ∧ w.inbox t = none

def Leads (t : Nat) (k : FlightKey) (w : World) : Prop := ∃ f, w.flights k = some f ∧ f.leader = t

structure Inv (w : World) (h : Hist) : Prop where
  visible : h.published = true → Visible w
  acked : h.acked = true → h.published = true
  late : ∀ t, h.since t = some true → h.published = true
  clear : ∀ t, h.since t = none → Clear t w
  waiters : ∀ k f t, w.flights k = some f → t ∈ f.waiters → h.since t = some true → w.origin.isSome = true ∧ h.denied f.leader = false
  inbox : ∀ t, w.inbox t = some .missing → h.since t ≠ some true
  missed : h.missed = false

/-- What the steps of others leave to request `t`. -/
structure Mono (t : Nat) (x x' : World × Hist) : Prop where
  origin : x.1.origin.isSome = true → x'.1.origin.isSome = true
  published : x.2.published = true → x'.2.published = true
  since : ∀ b, x.2.since t = some b → x'.2.since t = some b
  denied : x.2.denied t = true → x'.2.denied t = true
  clear : Clear t x.1 → Clear t x'.1
  leads : ∀ k, Leads t k x.1 → Leads t k x'.1

def Ends (t : Nat) (a : Res) (x : World × Hist) : Prop :=
  Clear t x.1 ∧ (a = .notFound → x.2.since t = some false) ∧ (Res.isWritten a = true → x.2.published = true)

def outline (N : Naming) : Outline (observer N).sys :=
  .ofRely (fun x => Inv x.1 x.2) Mono (fun t x => Clear t x.1) Ends

abbrev Ensures (N : Naming) (t : Nat) {α : Type} (p : Req α) (P : World × Hist → Prop) (Q : α → World × Hist → Prop) : Prop :=
  (outline N).Meets (policy N) t p P Q

/-! ## Visibility -/

variable {w w' : World}

theorem keeps_iff : keeps w w' = true ↔ (stands w = true → stands w' = true ∨ (w.origin.isSome = true ∧ masked w' = false)) ∧
      (masked w' = true → masked w = true ∨ stands w' = true) := by
  simp only [keeps]
  cases stands w <;> cases stands w' <;> cases masked w <;> cases masked w' <;> cases w.origin.isSome <;> decide

theorem uncovered_of_keeps (hk : keeps w w' = true) (hu : stands w = true ∨ masked w = false) : stands w' = true ∨ masked w' = false := by
  obtain ⟨hs, hm⟩ := keeps_iff.1 hk
  rcases hu with hu | hu
  · exact (hs hu).imp_right And.right
  · cases hm' : masked w' with
    | false => exact .inr rfl
    | true =>
      rcases hm hm' with h | h
      · cases hu.symm.trans h
      · exact .inl h

theorem exists_of_stands (hs : stands w = true) : ∃ r, w.wb = some r ∧ r.live w.now = true := by
  cases hr : w.wb with
  | none => simp [stands, hr] at hs
  | some r => exact ⟨r, rfl, by simpa [stands, hr] using hs⟩

theorem Visible.uncovered (hv : Visible w) : stands w = true ∨ masked w = false :=
  hv.backed.elim (fun h => .inl h.1) And.right

theorem Visible.keep (hv : Visible w) (ho : w.origin.isSome = true → w'.origin.isSome = true)
    (hr : ∀ r' ∈ w'.wb, ∃ r ∈ w.wb, versionOf r' = versionOf r) (hk : keeps w w' = true) : Visible w' := by
  refine ⟨fun r' hr' => ?_, ?_⟩
  · obtain ⟨r, hm, he⟩ := hr r' hr'
    rw [he]
    exact hv.alive r hm
  · rcases hv.backed with ⟨hs, r, hm, hp⟩ | ⟨hor, hu⟩
    · rcases (keeps_iff.1 hk).1 hs with hs' | ⟨hor, hu⟩
      · obtain ⟨r', hr', _⟩ := exists_of_stands hs'
        obtain ⟨r₀, hm₀, he⟩ := hr r' hr'
        cases hm.symm.trans hm₀
        exact .inl ⟨hs', r', hr', by rw [he]; exact hp⟩
      · exact .inr ⟨ho hor, .inr hu⟩
    · exact .inr ⟨ho hor, uncovered_of_keeps hk hu⟩

theorem Visible.settle (hv : Visible w) (ho : w'.origin.isSome = true) (hr : ∀ r ∈ w'.wb, (versionOf r).isDeleted = false)
    (hk : keeps w w' = true) : Visible w' :=
  ⟨hr, .inr ⟨ho, uncovered_of_keeps hk hv.uncovered⟩⟩

theorem Visible.of_row (hs : stands w = true) {r : Row} (hr : w.wb = some r)
    (hk : (versionOf r).isPending = true ∨ ((versionOf r).isDeleted = false ∧ w.origin.isSome = true)) : Visible w := by
  refine ⟨fun r' hr' => ?_, ?_⟩
  · cases hr.symm.trans hr'
    rcases hk with hp | ⟨hd, _⟩
    · cases hv : versionOf r with
      | deleted _ => simp [hv, CacheVersion.isPending] at hp
      | _ => rfl
    · exact hd
  · rcases hk with hp | ⟨_, ho⟩
    · exact .inl ⟨hs, r, hr, hp⟩
    · exact .inr ⟨ho, .inl hs⟩

theorem Visible.congr (hv : Visible w) (hn : w'.now = w.now) (hw : w'.wb = w.wb) (hc : w'.rc = w.rc)
    (ho : w.origin.isSome = true → w'.origin.isSome = true) : Visible w' := by
  have hs : stands w' = stands w := by simp only [stands, hn, hw]
  have hm : masked w' = masked w := by simp only [masked, hn, hc]
  refine ⟨by rw [hw]; exact hv.alive, ?_⟩
  rw [hs, hm, hw]
  exact hv.backed.imp_right fun h => ⟨ho h.1, h.2⟩

theorem Visible.lookup (hv : Visible w) :
    match Rows.lookup ⟨w.now, w.wb, w.rc⟩ with
    | some (_, r) => (versionOf r).isDeleted = false ∧ ((versionOf r).isPending = true ∨ w.origin.isSome = true)
    | none => w.origin.isSome = true := by
  -- without a live write-back row the object is at the origin, and the read cache has no tombstone
  have hback : liveRow w.wb w.now = none → w.origin.isSome = true ∧ masked w = false := by
    intro hn
    have hs : stands w = false := by
      cases hr : w.wb with
      | none => simp [stands, hr]
      | some r => simpa [stands, hr, liveRow, filter_eq_none_iff] using hn
    rcases hv.backed with ⟨h, _⟩ | ⟨ho, h | h⟩
    · cases hs.symm.trans h
    · cases hs.symm.trans h
    · exact ⟨ho, h⟩
  simp only [Rows.lookup]
  cases hr : liveRow w.wb w.now with
  | some r =>
    have hm := (filter_eq_some_iff.1 hr).1
    refine ⟨hv.alive r hm, ?_⟩
    rcases hv.backed with ⟨_, r', hm', hp⟩ | ⟨ho, _⟩
    · cases hm.symm.trans hm'
      exact .inl hp
    · exact .inr ho
  | none =>
    obtain ⟨ho, hm⟩ := hback hr
    cases hc : liveRow w.rc w.now with
    | none => exact ho
    | some r =>
      obtain ⟨hrc, hl⟩ := filter_eq_some_iff.1 hc
      refine ⟨?_, .inr ho⟩
      simpa [masked, hrc, hl] using hm

/-! ## Statements -/

variable {N : Naming} {h : Hist} {t v : Nat}

theorem Mono.refl (x : World × Hist) : Mono v x x := ⟨id, id, fun _ => id, id, id, fun _ => id⟩

variable {x : World × Hist} {s : Stmt} {etag : Text} {exp : Option Nat} {k : FlightKey} {r : s.Ans} {body : Body}

theorem Mono.trans {y z : World × Hist} (hxy : Mono v x y) (hyz : Mono v y z) : Mono v x z where
  origin ho := hyz.origin (hxy.origin ho)
  published hp := hyz.published (hxy.published hp)
  since b hb := hyz.since b (hxy.since b hb)
  denied hd := hyz.denied (hxy.denied hd)
  clear hc := hyz.clear (hxy.clear hc)
  leads k hl := hyz.leads k (hxy.leads k hl)

theorem Mono.beside (hb : Beside w w') : Mono v (w, h) (w', h) := by
  refine ⟨fun ho => by rw [hb.origin]; exact ho, id, fun _ => id, id, fun hc => ?_, fun k hl => ?_⟩
  · rw [Clear, hb.flights, hb.inbox]
    exact hc
  · rw [Leads, hb.flights]
    exact hl

theorem Inv.beside (hi : Inv w h) (hb : Beside w w') (hv : h.published = true → Visible w') : Inv w' h where
  visible := hv
  acked := hi.acked
  late := hi.late
  clear u hu := by
    rw [Clear, hb.flights, hb.inbox]
    exact hi.clear u hu
  waiters k f u := by
    rw [hb.flights, hb.origin]
    exact hi.waiters k f u
  inbox u := by
    rw [hb.inbox]
    exact hi.inbox u
  missed := hi.missed

/-- The history before the statement's own effect: the request has begun. -/
theorem mark_ok (hi : Inv w h) (t : Nat) : Inv w (h.mark t) ∧ (∀ v, Mono v (w, h) (w, h.mark t)) ∧ ∃ b, (h.mark t).since t = some b := by
  have hlate : ∀ u, (h.mark t).since u = some true → h.published = true ∧ (h.since u = some true ∨ Clear u w) := by
    intro u hu
    by_cases e : u = t
    · subst e
      simp only [Hist.mark, upd_self, some.injEq] at hu
      cases hs : h.since u with
      | none =>
        rw [hs] at hu
        exact ⟨hi.acked hu, .inr (hi.clear u hs)⟩
      | some b =>
        rw [hs] at hu
        exact ⟨hi.late u (hs.trans (congrArg some hu)), .inl (congrArg some hu)⟩
    · simp only [Hist.mark, upd_ne _ _ e] at hu
      exact ⟨hi.late u hu, .inl hu⟩
  refine ⟨⟨hi.visible, hi.acked, fun u hu => (hlate u hu).1, fun u hu => ?_, fun k f u hf hm hu => ?_, fun u hm hu => ?_, hi.missed⟩,
    fun v => ⟨id, id, fun b hb => ?_, id, id, fun _ => id⟩, _, upd_self _ _ _⟩
  · by_cases e : u = t
    · subst e
      simp [Hist.mark] at hu
    · exact hi.clear u (by simpa [Hist.mark, upd_ne _ _ e] using hu)
  · rcases (hlate u hu).2 with hs | hc
    · exact hi.waiters k f u hf hm hs
    · exact absurd hm (hc.1 k f hf)
  · rcases (hlate u hu).2 with hs | hc
    · exact hi.inbox u hm hs
    · cases hc.2.symm.trans hm
  · by_cases e : v = t
    · subst e
      simp [Hist.mark, show h.since v = some b from hb]
    · simpa [Hist.mark, upd_ne _ _ e] using hb

theorem Hist.deny_since (h : Hist) (t : Nat) (b : Bool) (u : Nat) : (h.deny t b).since u = h.since u := by
  cases b <;> rfl

/-- A request is told that there is no object: nobody waits for it who began after an acknowledged
write. -/
theorem Inv.deny (hi : Inv w h) {b : Bool} (hb : b = true → h.published = false ∨ w.origin = none) :
    Inv w (h.deny t b) ∧ ∀ v, Mono v (w, h) (w, h.deny t b) := by
  cases b with
  | false => exact ⟨hi, fun v => .refl _⟩
  | true =>
    refine ⟨⟨hi.visible, hi.acked, hi.late, hi.clear, fun k f u hf hm hu => ?_, hi.inbox, hi.missed⟩,
      fun v => ⟨id, id, fun _ => id, fun hd => ?_, id, fun _ => id⟩⟩
    · have ho := (hi.waiters k f u hf hm hu).1
      rcases hb rfl with hp | hn
      · cases hp.symm.trans (hi.late u hu)
      · rw [hn] at ho
        cases ho
    · by_cases e : v = t
      · subst e
        exact upd_self _ _ _
      · exact (upd_ne _ _ e).trans hd

def plainUpdate : Update → Bool
  | .publish .write _ _ _ _ | .complete _ _ _ _ _ _ | .markCommitted _ _ _ => false
  | _ => true

theorem plainUpdate_wb {u : Update} (hu : plainUpdate u = true) : ∀ r' ∈ (u.apply w).2.wb, ∃ r ∈ w.wb, versionOf r' = versionOf r := by
  have hsame : ∀ {w' : World}, w'.wb = w.wb → ∀ r' ∈ w'.wb, ∃ r ∈ w.wb, versionOf r' = versionOf r := by
    intro w' hw r' hr'
    exact ⟨r', hw ▸ hr', rfl⟩
  cases u with
  | publish side k etag body exp =>
    cases side with
    | write => cases hu
    | read =>
      apply hsame
      simp only [Update.apply, publish]
      split <;> rfl
  | claim owner =>
    apply hsame
    simp only [Update.apply, claimPendingUploads]
    split
    · split <;> rfl
    · rfl
  | abandon T => exact fun r' hr' => ⟨r', (filter_eq_some_iff.1 hr').1, rfl⟩
  | retire observed =>
    simp only [Update.apply, retireOriginObject]
    split
    · exact (by simp)
    · exact hsame rfl
  | touch side retention =>
    cases side with
    | read => exact hsame rfl
    | write =>
      intro r' hr'
      obtain ⟨r, hr, rfl⟩ := map_eq_some_iff.1 hr'
      exact ⟨r, hr, rfl⟩
  | acquireLease =>
    apply hsame
    simp only [Update.apply, acquireFillLease]
    split <;> rfl
  | remember info validated ttl =>
    apply hsame
    simp only [Update.apply, rememberOriginMetadata]
    split <;> rfl
  | failPending | clearPending | clearToken | deleteExpected | deleteCacheRow | releaseLease | forget | putChunk =>
    exact hsame rfl
  | complete | markCommitted => cases hu

/-- Statements that need no more than the invariant. -/
def plain : Stmt → Bool
  | .db u | .attempt u => plainUpdate u
  | s => s.beside

section

variable (hs : plain s = true)
include hs

theorem plain_beside : s.beside = true := by
  cases s <;> first | rfl | exact hs

theorem visible_plain (hv : Visible w) (hp : h.published = true)
    (hx : (r, w') ∈ exec N t s w) (ha : (policy N).step t s (w, h) r) : Visible w' := by
  have hupd : ∀ {u : Update} {r : Option u.Ans}, plainUpdate u = true → (r, w') ∈ execUpdate t u w →
      (∀ a, r = some a → Gentle (w, h) u) → Visible w' := by
    intro u r hu hx hg
    rcases execUpdate_cases hx with ⟨_, rfl⟩ | ⟨rfl, rfl, _⟩
    · exact hv
    · exact hv.keep (by rw [(u.beside w).origin]; exact id) (plainUpdate_wb hu) ((hg _ rfl).1 hp)
  cases s with
  | db | attempt => exact hupd hs hx fun a hr => by subst hr; exact ha
  | _ =>
    have hb := exec_beside (plain_beside hs) hx
    have hst := exec_sameStore rfl hx
    exact hv.congr hst.now hst.wb hst.rc (by rw [hb.origin]; exact id)

/-- What a plain statement tells: a query of the rows shows no tombstone once a write has published.
-/
theorem learn_plain (hi : Inv w h) (hx : (r, w') ∈ exec N t s w) :
    Inv w (h.learn t s r) ∧ ∀ v, Mono v (w, h) (w, h.learn t s r) := by
  have hsame : Inv w h ∧ ∀ v, Mono v (w, h) (w, h) := ⟨hi, fun v => .refl _⟩
  cases s with
  | db u =>
    cases u with
    | publish side k etag body exp =>
      cases side with
      | write => cases hs
      | read => exact hsame
    | complete => cases hs
    | _ => exact hsame
  | rows =>
    simp only [exec, mem_cons, not_mem_nil, or_false] at hx
    rcases hx with hx | hx <;> cases hx
    · refine hi.deny fun hd => .inl ?_
      cases hp : h.published with
      | false => rfl
      | true =>
        have hl := (hi.visible hp).lookup
        cases hr : Rows.lookup ⟨w.now, w.wb, w.rc⟩ with
        | none => simp [hr] at hd
        | some x =>
          simp only [hr] at hl
          simp [hr, hl.1] at hd
    · exact hsame
  | originRead =>
    simp only [exec, mem_cons, not_mem_nil, or_false] at hx
    rcases hx with hx | hx <;> cases hx
    · cases ho : w.origin with
      | none =>
        simp only [World.originAns, ho]
        exact hi.deny fun _ => .inr ho
      | some o =>
        simp only [World.originAns, ho]
        exact hsame
    · exact hsame
  | _ => exact hsame

theorem learn_published (r : s.Ans) : (h.learn t s r).published = h.published := by
  have hdeny : ∀ b, (h.deny t b).published = h.published := fun b => by cases b <;> rfl
  cases s with
  | db u =>
    cases u with
    | publish side k etag body exp =>
      cases side with
      | write => cases hs
      | read => rfl
    | complete => cases hs
    | _ => rfl
  | rows =>
    cases r with
    | none => rfl
    | some s => exact hdeny _
  | originRead =>
    cases r with
    | missing => exact hdeny true
    | _ => rfl
  | _ => rfl

theorem step_plain (hi : Inv w h) (hx : (r, w') ∈ exec N t s w) (ha : (policy N).step t s (w, h) r) :
    Inv w' ((observer N).step t s r w w' h) ∧ ∀ v, Mono v (w, h) (w', (observer N).step t s r w w' h) := by
  obtain ⟨him, hmm, _⟩ := mark_ok hi t
  obtain ⟨hil, hml⟩ := learn_plain hs him hx
  have hb := exec_beside (plain_beside hs) hx
  refine ⟨hil.beside hb fun hp => ?_, fun v => ((hmm v).trans (hml v)).trans (.beside hb)⟩
  have hp : h.published = true := (learn_published (h := h.mark t) (t := t) hs r).symm.trans hp
  exact visible_plain hs (hi.visible hp) hp hx ha

end

theorem Inv.publish (hi : Inv w h) (hb : Beside w w') (hv : Visible w') :
    Inv w' { h with published := true } ∧ ∀ v, Mono v (w, h) (w', { h with published := true }) := by
  have hi' := hi.beside hb fun _ => hv
  refine ⟨⟨fun _ => hv, fun _ => rfl, fun _ _ => rfl, hi'.clear, hi'.waiters, hi'.inbox, hi'.missed⟩, fun v => ?_⟩
  exact (Mono.beside hb).trans ⟨id, fun _ => rfl, fun _ => id, id, id, fun _ => id⟩

/-- The kinds of publication that a PUT makes: a pending body, or one that the origin has. -/
def PutKind (k : PubKind) (x : World × Hist) : Prop := k = .pending ∨ ((∃ v, k = .normal v) ∧ x.1.origin.isSome = true)

theorem step_publish {k : PubKind} {r : Option (Option Row)} (hi : Inv w h)
    (hk : PutKind k (w, h)) (hx : (r, w') ∈ exec N t (.db (.publish .write k etag body exp)) w)
    (ha : (policy N).step t (.db (.publish .write k etag body exp)) (w, h) r) :
    Inv w' ((observer N).step t (.db (.publish .write k etag body exp)) r w w' h) ∧
      (∀ v, Mono v (w, h) (w', (observer N).step t (.db (.publish .write k etag body exp)) r w w' h)) ∧
      (∀ m, r = some (some m) → ((observer N).step t (.db (.publish .write k etag body exp)) r w w' h).published = true) := by
  obtain ⟨him, hmm, _⟩ := mark_ok hi t
  rcases execUpdate_cases hx with ⟨rfl, rfl⟩ | ⟨rfl, rfl, _⟩
  · exact ⟨him, hmm, nofun⟩
  · have hfill : ∀ v owner, k ≠ .fill v owner := by
      rcases hk with rfl | ⟨⟨v, rfl⟩, _⟩ <;> simp
    obtain ⟨row, hrow⟩ : ∃ row, publishedRow w .write k etag body exp = some row := ⟨_, publishedRow_of_not_fill w hfill⟩
    have hb := (Update.publish .write k etag body exp).beside w
    have hst := ha.2 rfl
    rw [show (Update.publish .write k etag body exp).apply w = _ from publish_write w hrow] at hb hst ⊢
    have hver : (versionOf row).isPending = true ∨ ((versionOf row).isDeleted = false ∧ w.origin.isSome = true) := by
      rw [(publishedRow_eq_some w hrow).1, versionOf_mk]
      rcases hk with rfl | ⟨⟨v, rfl⟩, ho⟩
      · exact .inl rfl
      · exact .inr ⟨rfl, ho⟩
    obtain ⟨hi', hm'⟩ := him.publish hb (.of_row hst rfl hver)
    exact ⟨hi', fun v => (hmm v).trans (hm' v), fun _ _ => rfl⟩

theorem step_complete {base : Text} {missing : Bool} {owner : Option Nat}
    {r : Option Entry} (hi : Inv w h) (hx : (r, w') ∈ exec N t (.db (.complete etag body exp base missing owner)) w)
    (ha : (policy N).step t (.db (.complete etag body exp base missing owner)) (w, h) r) :
    Inv w' ((observer N).step t (.db (.complete etag body exp base missing owner)) r w w' h) ∧
      (∀ v, Mono v (w, h) (w', (observer N).step t (.db (.complete etag body exp base missing owner)) r w w' h)) ∧
      (r ≠ none → ((observer N).step t (.db (.complete etag body exp base missing owner)) r w w' h).published = true) := by
  obtain ⟨him, hmm, _⟩ := mark_ok hi t
  rcases execUpdate_cases hx with ⟨rfl, rfl⟩ | ⟨rfl, rfl, _⟩
  · exact ⟨him, hmm, fun hr => absurd rfl hr⟩
  · have hb := (Update.complete etag body exp base missing owner).beside w
    obtain ⟨hi', hm'⟩ := him.publish hb (.of_row (ha.2 rfl) rfl (.inl rfl))
    exact ⟨hi', fun v => (hmm v).trans (hm' v), fun _ => rfl⟩

theorem step_mark {T : Nat} {version : Text} {exp : Nat} {r : Option Bool} (hi : Inv w h) (ho : w.origin.isSome = true)
    (hx : (r, w') ∈ exec N t (.db (.markCommitted T version exp)) w)
    (ha : (policy N).step t (.db (.markCommitted T version exp)) (w, h) r) :
    Inv w' ((observer N).step t (.db (.markCommitted T version exp)) r w w' h) ∧
      ∀ v, Mono v (w, h) (w', (observer N).step t (.db (.markCommitted T version exp)) r w w' h) := by
  obtain ⟨him, hmm, _⟩ := mark_ok hi t
  rcases execUpdate_cases hx with ⟨rfl, rfl⟩ | ⟨rfl, rfl, _⟩
  · exact ⟨him, hmm⟩
  · have hb := (Update.markCommitted T version exp).beside w
    refine ⟨him.beside hb fun hp => ?_, fun v => (hmm v).trans (.beside hb)⟩
    refine (hi.visible hp).settle ho (fun r hr => ?_) (ha.1 hp)
    obtain ⟨r₀, hr₀, rfl⟩ := map_eq_some_iff.1 hr
    split
    · rfl
    · exact (hi.visible hp).alive r₀ hr₀

theorem step_upload {pre : Precondition} {conditional : Bool} {r : Uploaded} (hi : Inv w h)
    (hx : (r, w') ∈ exec N t (.originUpload body pre conditional) w) :
    Inv w' ((observer N).step t (.originUpload body pre conditional) r w w' h) ∧
      (∀ v, Mono v (w, h) (w', (observer N).step t (.originUpload body pre conditional) r w w' h)) ∧
      (∀ v, r = .ok v → w'.origin.isSome = true) := by
  obtain ⟨him, hmm, _⟩ := mark_ok hi t
  rcases mem_originUpload_cases hx with rfl | ⟨rfl, hr⟩
  · refine ⟨⟨fun hp => (hi.visible hp).congr rfl rfl rfl fun _ => rfl, him.acked, him.late, him.clear, ?_, him.inbox, him.missed⟩,
      fun v => (hmm v).trans ⟨fun _ => rfl, id, fun _ => id, id, id, fun _ => id⟩, fun _ _ => rfl⟩
    exact fun k f u hf hm hu => ⟨rfl, (him.waiters k f u hf hm hu).2⟩
  · exact ⟨him, hmm, fun v hv => absurd hv (hr v)⟩

/-- If the request began after an acknowledged write, the origin has the object. -/
def Sure (t : Nat) (x : World × Hist) : Prop := ∃ b, x.2.since t = some b ∧ (b = true → x.1.origin.isSome = true)

theorem Mono.sure {x' : World × Hist} (hm : Mono t x x') (hs : Sure t x) : Sure t x' := by
  obtain ⟨b, hb, ho⟩ := hs
  exact ⟨b, hm.since b hb, fun hb' => hm.origin (ho hb')⟩

theorem step_join {r : Bool} (hi : Inv w h) (hs : Sure t (w, h)) (hx : (r, w') ∈ exec N t (.join k) w)
    (ha : (policy N).step t (.join k) (w, h) r) :
    Inv w' ((observer N).step t (.join k) r w w' h) ∧ (∀ v, v ≠ t → Mono v (w, h) (w', (observer N).step t (.join k) r w w' h)) ∧
      Sure t (w', (observer N).step t (.join k) r w w' h) ∧
      (r = true → (Clear t w → Clear t w') ∧ Leads t k w') := by
  obtain ⟨him, hmm, _⟩ := mark_ok hi t
  have hsm := (hmm t).sure hs
  have hx : (r, w') = w.enter t k := mem_singleton.1 hx
  cases hf : w.flights k with
  | none =>
    simp only [World.enter, hf, Prod.mk.injEq] at hx
    obtain ⟨rfl, rfl⟩ := hx
    have hclear : ∀ u, Clear u w → Clear u { w with flights := fun k' => if k' = k then some ⟨t, []⟩ else w.flights k' } := by
      refine fun u hc => ⟨fun k' f hk' => ?_, hc.2⟩
      simp only at hk'
      split at hk'
      · cases hk'
        exact not_mem_nil
      · exact hc.1 k' f hk'
    refine ⟨⟨fun hp => (hi.visible hp).congr rfl rfl rfl id, him.acked, him.late, fun u hu => hclear u (him.clear u hu), ?_,
      him.inbox, him.missed⟩, fun v _ => (hmm v).trans ⟨id, id, fun _ => id, id, hclear v, fun k' hl => ?_⟩, hsm, fun _ => ⟨hclear t, ?_⟩⟩
    · intro k' f u hk'
      simp only at hk'
      split at hk'
      · cases hk'
        exact fun hm => absurd hm not_mem_nil
      · exact him.waiters k' f u hk'
    · obtain ⟨f, hk', hl⟩ := hl
      refine ⟨f, ?_, hl⟩
      simp only
      split
      · next he =>
        subst he
        cases hf.symm.trans hk'
      · exact hk'
    · exact ⟨⟨t, []⟩, by simp, rfl⟩
  | some f =>
    simp only [World.enter, hf, Prod.mk.injEq] at hx
    obtain ⟨rfl, rfl⟩ := hx
    refine ⟨⟨fun hp => (hi.visible hp).congr rfl rfl rfl id, him.acked, him.late, fun u hu => ?_, ?_, him.inbox, him.missed⟩,
      fun v hv => (hmm v).trans ⟨id, id, fun _ => id, id, fun hc => ?_, fun k' hl => ?_⟩, hsm, by simp⟩
    · have hc := him.clear u hu
      refine ⟨fun k' f' hk' => ?_, hc.2⟩
      simp only at hk'
      split at hk'
      · cases hk'
        have hut : u ≠ t := by
          rintro rfl
          simp [observer, Hist.learn, Hist.mark] at hu
        simpa [hut] using hc.1 k f hf
      · exact hc.1 k' f' hk'
    · intro k' f' u hk' hm hu
      simp only at hk'
      split at hk'
      · cases hk'
        rcases mem_cons.1 hm with rfl | hm
        · obtain ⟨b, hb, ho⟩ := hsm
          cases hb.symm.trans hu
          have hd : ((w.flights k).all fun f => !h.denied f.leader) = true := ha (him.late u hu)
          rw [hf] at hd
          have hd : h.denied f.leader = false := by simpa using hd
          exact ⟨ho rfl, hd⟩
        · exact him.waiters k f u hf hm hu
      · exact him.waiters k' f' u hk' hm hu
    · refine ⟨fun k' f' hk' => ?_, hc.2⟩
      simp only at hk'
      split at hk'
      · cases hk'
        simpa [hv] using hc.1 k f hf
      · exact hc.1 k' f' hk'
    · obtain ⟨f', hk', hl⟩ := hl
      by_cases he : k' = k
      · subst he
        cases hf.symm.trans hk'
        exact ⟨{ f with waiters := t :: f.waiters }, by simp, hl⟩
      · exact ⟨f', by simpa [he] using hk', hl⟩

/-- The leader ends its flight. It says that there is no object only if it has been told so. -/
theorem step_finish {f : Fetched} {r : Unit} (hi : Inv w h) (hb : ∃ b, h.since t = some b) (hl : Leads t k w)
    (hd : f = .missing → h.denied t = true) (hx : (r, w') ∈ exec N t (.finish k f) w) :
    Inv w' ((observer N).step t (.finish k f) r w w' h) ∧ (∀ v, v ≠ t → Mono v (w, h) (w', (observer N).step t (.finish k f) r w w' h)) ∧
      (Clear t w → Clear t w') ∧ w'.origin = w.origin ∧ (observer N).step t (.finish k f) r w w' h = h := by
  have hmark : (observer N).step t (.finish k f) r w w' h = h := by
    obtain ⟨b, hb⟩ := hb
    have hs : upd h.since t (some b) = h.since := by
      funext u
      by_cases e : u = t
      · subst e; simp [hb]
      · simp [upd_ne _ _ e]
    simp [observer, Hist.learn, Hist.mark, hb, hs]
  rw [hmark]
  obtain ⟨fl, hfl, rfl⟩ := hl
  have hx : w' = w.land k f := congrArg Prod.snd (mem_singleton.1 hx)
  simp only [World.land, hfl] at hx
  subst hx
  have hclear : ∀ u, Clear u w → Clear u { w with
      flights := fun k' => if k' = k then none else w.flights k'
      inbox := fun t => if t ∈ fl.waiters then some f else w.inbox t } := by
    refine fun u hc => ⟨fun k' f' hk' => ?_, by simp [hc.1 k fl hfl, hc.2]⟩
    simp only at hk'
    split at hk'
    · cases hk'
    · exact hc.1 k' f' hk'
  refine ⟨⟨fun hp => (hi.visible hp).congr rfl rfl rfl id, hi.acked, hi.late, fun u hu => hclear u (hi.clear u hu), ?_, ?_, hi.missed⟩,
    fun v hv => ⟨id, id, fun _ => id, id, hclear v, fun k' hl => ?_⟩, hclear _, rfl, rfl⟩
  · intro k' f' u hk'
    simp only at hk'
    split at hk'
    · cases hk'
    · exact hi.waiters k' f' u hk'
  · intro u hm hu
    simp only at hm
    split at hm
    · next hw =>
      have := (hi.waiters k fl u hfl hw hu).2
      rw [hd (some.inj hm)] at this
      cases this
    · exact hi.inbox u hm hu
  · obtain ⟨f', hk', hl⟩ := hl
    refine ⟨f', ?_, hl⟩
    simp only
    split
    · next he =>
      subst he
      cases hfl.symm.trans hk'
      exact absurd hl.symm hv
    · exact hk'

theorem step_wait {r : Fetched} (hi : Inv w h) (hs : Sure t (w, h)) (hx : (r, w') ∈ exec N t .wait w) :
    Inv w' ((observer N).step t .wait r w w' h) ∧ (∀ v, Mono v (w, h) (w', (observer N).step t .wait r w w' h)) ∧ Clear t w' ∧
      (r = .missing → ((observer N).step t .wait r w w' h).since t = some false) := by
  obtain ⟨him, hmm, _⟩ := mark_ok hi t
  obtain ⟨b, hb, _⟩ := (hmm t).sure hs
  obtain ⟨rfl, hr⟩ := mem_wait_cases hx
  have hflight : ∀ k f', (w.leave t).flights k = some f' →
      ∃ f, w.flights k = some f ∧ f'.leader = f.leader ∧ (∀ u ∈ f'.waiters, u ∈ f.waiters) ∧ t ∉ f'.waiters := by
    intro k f' hf'
    obtain ⟨f, hf, rfl⟩ := map_eq_some_iff.1 hf'
    exact ⟨f, hf, rfl, fun u hu => (mem_filter.1 hu).1, by simp⟩
  have hclear : ∀ u, Clear u w → Clear u (w.leave t) := by
    refine fun u hc => ⟨fun k f' hf' hu => ?_, ?_⟩
    · obtain ⟨f, hf, _, hsub, _⟩ := hflight k f' hf'
      exact hc.1 k f hf (hsub u hu)
    · simp [World.leave, hc.2]
  refine ⟨⟨fun hp => (hi.visible hp).congr rfl rfl rfl id, him.acked, him.late,
    fun u hu => hclear u (him.clear u hu), ?_, ?_, him.missed⟩,
    fun v => (hmm v).trans ⟨id, id, fun _ => id, id, hclear v, fun k hl => ?_⟩, ⟨fun k f' hf' => ?_, by simp [World.leave]⟩,
    fun h' => ?_⟩
  · intro k f' u hf' hu hl
    obtain ⟨f, hf, he, hsub, _⟩ := hflight k f' hf'
    rw [he]
    exact him.waiters k f u hf (hsub u hu) hl
  · intro u hm
    simp only [World.leave] at hm
    split at hm
    · cases hm
    · exact him.inbox u hm
  · obtain ⟨f, hf, hl⟩ := hl
    exact ⟨{ f with waiters := f.waiters.filter (· != t) }, map_eq_some_iff.2 ⟨f, hf, rfl⟩, hl⟩
  · obtain ⟨_, _, _, _, hn⟩ := hflight k f' hf'
    exact hn
  · cases b with
    | false => exact hb
    | true => exact absurd hb (him.inbox t (h' ▸ hr.resolve_right (h' ▸ nofun)))

end Presence

end Pgvs3.Tier
