import Pgvs3.Tier.Routine
/-!
# An acknowledged write-back body stays until it is uploaded

A write-back PUT or CompleteUpload is acknowledged when its body is in the write-back row with a
pending token and no expiry. The history follows the newest such body until a flush that has
uploaded it marks it committed, or another write or delete replaces the row.

The refresh is keyed by the object key only (`store.go:1079-1080`): a reader that has validated an
older version gives a new pending row an expiry, and the sweeps take it (`touched_pending_lost`).
-/

namespace Pgvs3.Tier

open Conc Sys Option Tier Outline

namespace Retained

/-- The body published under each token without an expiry, the body that has to stay, and the body
each request has uploaded last. -/
structure Hist where
  issued : Nat → Option Body
  prot : Option (Nat × Body)
  sent : Nat → Option Body

def Hist.init : Hist := ⟨fun _ => none, none, fun _ => none⟩

def Hist.issue (h : Hist) (n : Nat) (b : Body) : Hist := { h with issued := upd h.issued n (some b), prot := some (n, b) }

/-- What a transaction of request `t` means for the body that has to stay. -/
def Hist.update (h : Hist) (t : Nat) (w : World) : (u : Update) → u.Ans → Hist
  | .publish .write .pending _ body _, some _ => h.issue w.fresh body
  | .publish .write _ _ _ _, some _ => { h with prot := none }
  | .complete _ body exp base missing _, _ =>
    if exp = none ∧ base = [] ∧ missing = false then h.issue w.fresh body else { h with prot := none }
  | .markCommitted token _ _, _ =>
    match h.prot with
    | some (n, b) => if n = token ∧ h.sent t = some b then { h with prot := none } else h
    | none => h
  | _, _ => h

/-- A transaction that failed means nothing. -/
def Hist.answer (h : Hist) (t : Nat) (w : World) (u : Update) : Option u.Ans → Hist
  | some a => h.update t w u a
  | none => h

def observer (N : Naming) : Observer (sys N) Hist where
  step t s r w _ h :=
    match s, r with
    | .db u, r | .attempt u, r => h.answer t w u r
    | .originUpload body _ _, .ok _ => { h with sent := upd h.sent t (some body) }
    | _, _ => h
  env _ _ _ h := h
  done _ _ _ h := h

/-- The body that has to stay is in the write-back row, pending and without expiry. -/
def Kept (w : World) (h : Hist) : Prop :=
  ∀ n b, h.prot = some (n, b) → ∃ r, w.wb = some r ∧ versionOf r = .pending n ∧ r.body.body = b ∧ r.expiresAt = none

/-- Tokens in use were drawn from the counter. -/
structure TokensBelow (w : World) : Prop where
  row : ∀ r n, w.wb = some r → versionOf r = .pending n → n < w.fresh
  entry : ∀ e, w.outbox = some e → e.token < w.fresh

def NotPending (w : World) : Prop := ∀ r ∈ w.wb, (versionOf r).isPending = false

instance NotPending.decidable (w : World) : Decidable (NotPending w) :=
  inferInstanceAs (Decidable (∀ r ∈ w.wb, (versionOf r).isPending = false))

variable {r : Row} {w : World} {exp : Nat} {v : Text} {u : Option Nat} {N : Naming} {s : Stmt} {p : Req Res}
  {P : World × Hist → Prop} {h : Hist}

theorem NotPending.ne (h : NotPending w) (hr : w.wb = some r) (n : Nat) : versionOf r ≠ .pending n := by
  intro hv
  have := h r hr
  rw [hv] at this
  cases this

/-- Any tier request, any sweep and any change at the origin. -/
def everyRun (N : Naming) : (observer N).sys.Policy where
  spawn _ _ p := IsRequest N p
  step _ _ _ _ := True
  env _ _ := True

/-- Any tier request, any sweep and any change at the origin, except that the refresh of a
write-back row does not find a pending one. -/
def policy (N : Naming) : (observer N).sys.Policy where
  spawn _ _ p := IsRequest N p
  step _ s w r :=
    match s, r with
    | .attempt (.touch .write _), some _ => NotPending w.1
    | _, _ => True
  env _ _ := True

structure Inv (w : World) (h : Hist) : Prop where
  kept : Kept w h
  issued : ∀ n b, h.prot = some (n, b) → h.issued n = some b
  body : ∀ r n b, w.wb = some r → versionOf r = .pending n → h.issued n = some b → r.body.body = b
  entry : ∀ e b, w.outbox = some e → h.issued e.token = some b → flushCondition e = .none
  below : ∀ n b, h.issued n = some b → n < w.fresh
  tokens : TokensBelow w

/-- Tokens keep their meaning, and a request's uploads are its own. -/
structure Guar (u : Option Nat) (w w' : World × Hist) : Prop where
  fresh : w.1.fresh ≤ w'.1.fresh
  issued : ∀ n, n < w.1.fresh → w'.2.issued n = w.2.issued n
  sent : ∀ v, u ≠ some v → w'.2.sent v = w.2.sent v

def outline (N : Naming) : Outline (observer N).sys where
  inv w := Inv w.1 w.2
  guar := Guar
  idle _ _ := True
  post _ _ _ := True

abbrev Shows (N : Naming) (t : Nat) {α : Type} (p : Req α) (P : World × Hist → Prop) (Q : α → World × Hist → Prop) : Prop :=
  (outline N).Meets (policy N) t p P Q

/-! ## Transactions -/

variable {w' : World} {t : Nat}

/-- A pending row and an outbox entry of `w'` are those of `w` up to expiry, creation time and
lease. -/
structure Shrinks (w w' : World) : Prop where
  fresh : w.fresh ≤ w'.fresh
  row : ∀ r' n, w'.wb = some r' → versionOf r' = .pending n → ∃ r, w.wb = some r ∧ versionOf r = .pending n ∧ r'.body = r.body
  entry : ∀ e', w'.outbox = some e' → ∃ e, w.outbox = some e ∧ e'.token = e.token ∧ flushCondition e' = flushCondition e

theorem Shrinks.of_eq (hf : w.fresh ≤ w'.fresh) (hw : w'.wb = w.wb) (ho : w'.outbox = w.outbox) : Shrinks w w' :=
  ⟨hf, fun r' _ hr hv => ⟨r', hw ▸ hr, hv, rfl⟩, fun e' he => ⟨e', ho ▸ he, rfl, rfl⟩⟩

section

variable (hi : Inv w h)
include hi

theorem Inv.shrink (hs : Shrinks w w') (hk : Kept w' h) : Inv w' h where
  kept := hk
  issued := hi.issued
  body r' n b hr hv hb := by
    obtain ⟨r, hr', hv', hbody⟩ := hs.row r' n hr hv
    rw [hbody]
    exact hi.body r n b hr' hv' hb
  entry e' b he hb := by
    obtain ⟨e, he', ht, hc⟩ := hs.entry e' he
    rw [hc]
    exact hi.entry e b he' (ht ▸ hb)
  below n b hb := Nat.lt_of_lt_of_le (hi.below n b hb) hs.fresh
  tokens :=
    ⟨fun r' n hr hv => by
      obtain ⟨r, hr', hv', _⟩ := hs.row r' n hr hv
      exact Nat.lt_of_lt_of_le (hi.tokens.row r n hr' hv') hs.fresh,
     fun e' he => by
      obtain ⟨e, he', ht, _⟩ := hs.entry e' he
      rw [ht]
      exact Nat.lt_of_lt_of_le (hi.tokens.entry e he') hs.fresh⟩

theorem Inv.release : Inv w { h with prot := none } :=
  ⟨nofun, nofun, hi.body, hi.entry, hi.below, hi.tokens⟩

theorem Inv.sameRow (hs : Shrinks w w') (hw : w'.wb = w.wb) : Inv w' h :=
  hi.shrink hs fun n b hp => by rw [hw]; exact hi.kept n b hp

theorem Inv.issue {r : Row} {b : Body} (hf : w'.fresh = w.fresh + 1) (hw : w'.wb = some r)
    (hv : versionOf r = .pending w.fresh) (hb : r.body.body = b) (he : r.expiresAt = none)
    (ho : ∃ e, w'.outbox = some e ∧ e.token = w.fresh ∧ flushCondition e = .none) :
    Inv w' (h.issue w.fresh b) where
  kept n b' hp := by
    cases hp
    exact ⟨r, hw, hv, hb, he⟩
  issued n b' hp := by
    cases hp
    simp [Hist.issue]
  body r' n b' hr hv' hb' := by
    cases hw.symm.trans hr
    cases hv.symm.trans hv'
    simpa [Hist.issue, hb, eq_comm] using hb'
  entry e' b' he' _ := by
    obtain ⟨e, ho', _, hc⟩ := ho
    cases ho'.symm.trans he'
    exact hc
  below n b' hb' := by
    by_cases hn : n = w.fresh
    · omega
    · simp only [Hist.issue, upd_ne _ _ hn] at hb'
      have := hi.below n b' hb'
      omega
  tokens := by
    obtain ⟨e, ho', ht, _⟩ := ho
    refine ⟨fun r' n hr hv' => ?_, fun e' he' => ?_⟩
    · cases hw.symm.trans hr
      cases hv.symm.trans hv'
      omega
    · cases ho'.symm.trans he'
      omega

theorem Inv.replace (hf : w'.fresh = w.fresh + 1) (hw : w'.wb = some r) (hv : ∀ n, versionOf r = .pending n → n = w.fresh)
    (ho : w'.outbox = w.outbox ∨ ∃ e, w'.outbox = some e ∧ e.token = w.fresh) :
    Inv w' { h with prot := none } where
  kept n b hp := by cases hp
  issued n b hp := by cases hp
  body r' n b hr hv' hb := by
    cases hw.symm.trans hr
    have := hi.below n b hb
    have := hv n hv'
    omega
  entry e' b he hb := by
    rcases ho with ho | ⟨e, ho, ht⟩
    · exact hi.entry e' b (ho ▸ he) hb
    · cases ho.symm.trans he
      have := hi.below _ b hb
      omega
  below n b hb := by
    have := hi.below n b hb
    omega
  tokens := by
    refine ⟨fun r' n hr hv' => ?_, fun e' he => ?_⟩
    · cases hw.symm.trans hr
      have := hv n hv'
      omega
    · rcases ho with ho | ⟨e, ho, ht⟩
      · have := hi.tokens.entry e' (ho ▸ he)
        omega
      · cases ho.symm.trans he
        omega

end

theorem Shrinks.outbox {o : Option Entry}
    (ho : ∀ e', o = some e' → ∃ e, w.outbox = some e ∧ e'.token = e.token ∧ flushCondition e' = flushCondition e) :
    Shrinks w { w with outbox := o } :=
  ⟨le_rfl, fun r' _ hr hv => ⟨r', hr, hv, rfl⟩, ho⟩

variable {n : Nat}

theorem dropToken_some {e : Entry} (he : dropToken w n = some e) : w.outbox = some e ∧ e.token ≠ n := by
  simpa [dropToken, filter_eq_some_iff] using he

theorem inv_publish_write (hi : Inv w h) {k : PubKind} {etag : Text} {body : Body} {exp : Option Nat}
    (hr : publishedRow w .write k etag body exp = some r) :
    Inv { w with wb := some r, fresh := w.fresh + 1, outbox := if k = .pending then some (newEntry w [] false none) else w.outbox }
      (if k = .pending then h.issue w.fresh body else { h with prot := none }) := by
  obtain ⟨hrow, _, _⟩ := publishedRow_eq_some w hr
  by_cases hk : k = .pending
  · subst hk
    simp only [if_true] at hrow ⊢
    exact hi.issue rfl rfl (by rw [hrow]; rfl) (by rw [hrow]) (by rw [hrow]) ⟨_, rfl, rfl, rfl⟩
  · simp only [hk, if_false] at hrow ⊢
    refine hi.replace rfl rfl (fun n hn => ?_) (.inl rfl)
    cases k <;> simp_all [versionOf, PubKind.version]

theorem inv_update (hi : Inv w h) (u : Update) (hm : ∀ n v e, u ≠ .markCommitted n v e) (ha : ∀ n, u ≠ .abandon n)
    (ht : ∀ retention, u = .touch .write retention → NotPending w) :
    Inv (u.apply w).2 (h.update t w u (u.apply w).1) := by
  cases u with
  | publish side k etag body exp =>
    cases hr : publishedRow w side k etag body exp with
    | none =>
      simp only [Update.apply, publish, hr]
      cases side <;> cases k <;> exact hi
    | some r =>
      cases side with
      | write =>
        have := inv_publish_write hi hr
        cases k <;> simpa [Update.apply, publish, hr, World.setRow, Hist.update] using this
      | read =>
        simp only [Update.apply, publish, hr, World.setRow, Hist.update]
        exact hi.sameRow (.of_eq (Nat.le_succ _) rfl (by simp)) rfl
  | complete etag body exp base missing owner =>
    simp only [Hist.update]
    split
    · next hc =>
      obtain ⟨rfl, rfl, rfl⟩ := hc
      exact hi.issue rfl rfl rfl rfl rfl ⟨_, rfl, rfl, rfl⟩
    · exact hi.replace rfl rfl (fun n hn => by cases hn; rfl) (.inr ⟨_, rfl, rfl⟩)
  | markCommitted n v e => exact absurd rfl (hm n v e)
  | abandon n => exact absurd rfl (ha n)
  | failPending n owner attempt permanent =>
    refine hi.sameRow (Shrinks.outbox fun e' he => ?_) rfl
    obtain ⟨e, he', rfl⟩ := map_eq_some_iff.1 he
    refine ⟨e, he', ?_⟩
    split <;> exact ⟨rfl, rfl⟩
  | clearPending => exact hi.sameRow (Shrinks.outbox (by simp)) rfl
  | clearToken n => exact hi.sameRow (Shrinks.outbox fun e' he => ⟨e', (dropToken_some he).1, rfl, rfl⟩) rfl
  | claim owner =>
    simp only [Update.apply, claimPendingUploads, Hist.update]
    split
    · next e he =>
      split
      · exact hi.sameRow (Shrinks.outbox fun e' he' => by cases he'; exact ⟨e, he, rfl, rfl⟩) rfl
      · exact hi
    · exact hi
  | retire observed =>
    simp only [Update.apply, retireOriginObject, Hist.update]
    split
    · next hc =>
      refine hi.shrink ⟨le_rfl, by simp, fun e' he => ⟨e', he, rfl, rfl⟩⟩ fun n b hp => ?_
      -- the row to be kept is pending, the retired one has a live version
      obtain ⟨r, hr, hv, _⟩ := hi.kept n b hp
      simp only [hr, any_some, sameRow, Bool.and_eq_true, beq_iff_eq] at hc
      rw [← hc.2.1.1.1, hv] at hc
      cases hc.1
    · exact hi
  | touch side retention =>
    cases side with
    | read => exact hi.sameRow (.of_eq (le_rfl) rfl rfl) rfl
    | write =>
      refine hi.shrink ⟨le_rfl, fun r' n hr hv => ?_, fun e' he => ⟨e', he, rfl, rfl⟩⟩ fun n b hp => ?_
      · obtain ⟨r, hr', rfl⟩ := map_eq_some_iff.1 hr
        exact ⟨r, hr', hv, rfl⟩
      · obtain ⟨r, hr, hv, _⟩ := hi.kept n b hp
        exact absurd hv ((ht retention rfl).ne hr n)
  | acquireLease =>
    simp only [Update.apply, acquireFillLease, Hist.update]
    split
    · exact hi.sameRow (.of_eq (Nat.le_succ _) rfl rfl) rfl
    · exact hi
  | remember info validated ttl =>
    simp only [Update.apply, rememberOriginMetadata, Hist.update]
    split
    · exact hi.sameRow (.of_eq (le_rfl) rfl rfl) rfl
    · exact hi
  | _ => exact hi.sameRow (.of_eq (le_rfl) rfl rfl) rfl

/-- `MarkOriginCommitted` by a request that has uploaded the body it marks. -/
theorem inv_mark (hi : Inv w h) (hsent : ∀ b, h.issued n = some b → h.sent t = some b) :
    Inv (markOriginCommitted w n v exp).2 (h.update t w (.markCommitted n v exp) (markOriginCommitted w n v exp).1) := by
  have hsh : Shrinks w (markOriginCommitted w n v exp).2 := by
    refine ⟨le_rfl, fun r' m hr hv => ?_, fun e' he => ⟨e', (dropToken_some he).1, rfl, rfl⟩⟩
    obtain ⟨r, hr', rfl⟩ := map_eq_some_iff.1 hr
    split at hv
    · cases hv
    · next hne => exact ⟨r, hr', hv, by simp [hne]⟩
  -- a row kept under another token is not the marked one
  have hkeep : ∀ m b, h.prot = some (m, b) → m ≠ n → ∃ r, (markOriginCommitted w n v exp).2.wb = some r ∧
      versionOf r = .pending m ∧ r.body.body = b ∧ r.expiresAt = none := by
    intro m b hp hne
    obtain ⟨r, hr, hvr, hb, he⟩ := hi.kept m b hp
    exact ⟨r, by simp [markOriginCommitted, hr, hvr, hne], hvr, hb, he⟩
  simp only [Hist.update]
  split
  · next m b hp =>
    split
    · exact hi.release.shrink hsh nofun
    · next hne =>
      refine hi.shrink hsh fun m' b' hp' => hkeep m' b' hp' ?_
      rintro rfl
      cases hp.symm.trans hp'
      exact hne ⟨rfl, hsent b (hi.issued m b hp)⟩
  · next hp => exact hi.shrink hsh fun m b hp' => by cases hp.symm.trans hp'

theorem inv_abandon (hi : Inv w h) (hn : h.issued n = none) : Inv (abandonPendingUpload w n) h := by
  refine hi.shrink ⟨le_rfl, fun r' m hr hv => ?_, fun e' he => ⟨e', (dropToken_some he).1, rfl, rfl⟩⟩ fun m b hp => ?_
  · obtain ⟨hr', -⟩ := filter_eq_some_iff.1 hr
    exact ⟨r', hr', hv, rfl⟩
  · obtain ⟨r, hr, hv, hb, he⟩ := hi.kept m b hp
    refine ⟨r, ?_, hv, hb, he⟩
    have hne : m ≠ n := by
      rintro rfl
      cases hn.symm.trans (hi.issued m b hp)
    simp [abandonPendingUpload, hr, hv, hne]

/-! ## Statements -/

theorem update_cases (u : Update) (a : u.Ans) :
    h.update t w u a = h ∨ (∃ b, h.update t w u a = h.issue w.fresh b) ∨ h.update t w u a = { h with prot := none } := by
  unfold Hist.update
  split
  · exact .inr (.inl ⟨_, rfl⟩)
  · exact .inr (.inr rfl)
  · split
    · exact .inr (.inl ⟨_, rfl⟩)
    · exact .inr (.inr rfl)
  · split
    · split
      · exact .inr (.inr rfl)
      · exact .inl rfl
    · exact .inl rfl
  · exact .inl rfl

theorem guar_update (u : Update) (a : u.Ans) : Guar (some t) (w, h) ((u.apply w).2, h.update t w u a) := by
  refine ⟨(u.beside w).fresh, fun n hn => ?_, fun v _ => ?_⟩
  · rcases @update_cases w h t u a with he | ⟨b, he⟩ | he <;> simp only [he]
    exact upd_ne _ _ (Nat.ne_of_lt hn)
  · rcases @update_cases w h t u a with he | ⟨b, he⟩ | he <;> simp only [he]
    rfl

theorem guar_same (hf : w.fresh ≤ w'.fresh) : Guar u (w, h) (w', h) :=
  ⟨hf, fun _ _ => rfl, fun _ _ => rfl⟩

/-- Statements without a hold on the row to be kept: all but marking and abandoning. -/
def Plain : Stmt → Bool
  | .db (.markCommitted _ _ _) | .attempt (.markCommitted _ _ _) | .db (.abandon _) | .attempt (.abandon _)
  | .db (.touch _ _) => false
  | _ => true

theorem step_update (hi : Inv w h) {u : Update} {r : Option u.Ans} (hx : (r, w') ∈ execUpdate t u w)
    (hm : ∀ n v e, u ≠ .markCommitted n v e) (ha : ∀ n, u ≠ .abandon n)
    (ht : ∀ retention, u = .touch .write retention → r.isSome → NotPending w) :
    Inv w' (h.answer t w u r) ∧ Guar (some t) (w, h) (w', h.answer t w u r) := by
  rcases execUpdate_cases hx with ⟨rfl, rfl⟩ | ⟨rfl, rfl, _⟩
  · exact ⟨hi, guar_same (le_rfl)⟩
  · exact ⟨inv_update hi u hm ha fun retention hu => ht retention hu rfl, guar_update u _⟩

theorem step_plain (hp : Plain s = true) (hi : Inv w h) {r : s.Ans} (hx : (r, w') ∈ exec N t s w) (ha : (policy N).step t s (w, h) r) :
    Inv w' ((observer N).step t s r w w' h) ∧ Guar (some t) (w, h) (w', (observer N).step t s r w w' h) := by
  cases s with
  | db u =>
    refine step_update hi hx ?_ ?_ ?_
    · rintro n v e rfl; cases hp
    · rintro n rfl; cases hp
    · rintro retention rfl; cases hp
  | attempt u =>
    refine step_update hi hx ?_ ?_ fun retention hu hr => ?_
    · rintro n v e rfl; cases hp
    · rintro n rfl; cases hp
    · subst hu
      obtain ⟨a, rfl⟩ := isSome_iff_exists.1 hr
      exact ha
  | originUpload body pre conditional =>
    have hsame := exec_sameStore rfl hx
    have hi' := hi.sameRow (.of_eq hsame.fresh hsame.wb hsame.outbox) hsame.wb
    cases r with
    | ok v =>
      refine ⟨⟨hi'.kept, hi'.issued, hi'.body, hi'.entry, hi'.below, hi'.tokens⟩, hsame.fresh, fun _ _ => rfl, fun v hv => ?_⟩
      exact upd_ne _ _ fun he => hv (by rw [he])
    | _ => exact ⟨hi', guar_same hsame.fresh⟩
  | _ =>
    have hsame := exec_sameStore rfl hx
    exact ⟨hi.sameRow (.of_eq hsame.fresh hsame.wb hsame.outbox) hsame.wb, guar_same hsame.fresh⟩

/-! ## Requests made of plain statements only -/

variable {g : Gateway}

abbrev AllPlain {α : Type} (p : Req α) : Prop := Asks Plain p

theorem plain_of_quiet (s : Stmt) (h : s.quiet = true) : Plain s = true := by
  cases s <;> first | rfl | cases h

theorem plain_of_reads (s : Stmt) (h : s.reads = true) : Plain s = true := by
  cases s with
  | db u | attempt u => cases u <;> first | rfl | cases h
  | _ => rfl

theorem plain_of_puts (s : Stmt) (h : s.puts = true) : Plain s = true := by
  cases s with
  | db u | attempt u => cases u <;> first | rfl | cases h
  | _ => rfl

theorem plain_fenceReadCache : AllPlain (fenceReadCache N) := fenceReadCache_puts.mono plain_of_puts

/-! ## Flushes -/

/-- The entry of a flush: its token is in use, and it is unconditional if a body is kept under it.
-/
def Claimed (p : Entry) (w : World × Hist) : Prop :=
  p.token < w.1.fresh ∧ ∀ b, w.2.issued p.token = some b → flushCondition p = .none

/-- The body kept under the token is `b`. -/
def BodyIs (p : Entry) (b : Body) (w : World × Hist) : Prop := ∀ b', w.2.issued p.token = some b' → b' = b

def Sent (t : Nat) (b : Body) (w : World × Hist) : Prop := w.2.sent t = some b

variable {w' : World × Hist} {b : Body} {α : Type}

theorem Claimed.mono {p : Entry} {w : World × Hist} (h : Claimed p w) (hg : Guar u w w') :
    Claimed p w' :=
  ⟨Nat.lt_of_lt_of_le h.1 hg.fresh, fun b hb => h.2 b (by rw [← hg.issued _ h.1]; exact hb)⟩

theorem BodyIs.mono {p : Entry} {w : World × Hist} (hp : Claimed p w) (h : BodyIs p b w) (hg : Guar u w w') : BodyIs p b w' :=
  fun b' hb => h b' (by rw [← hg.issued _ hp.1]; exact hb)

theorem stable_bodyIs (p : Entry) (b : Body) : (outline N).Stable t fun w => Claimed p w ∧ BodyIs p b w :=
  fun _ _ _ _ _ _ hg h => ⟨h.1.mono hg, h.2.mono h.1 hg⟩

theorem stable_sent (b : Body) : (outline N).Stable t (Sent t b) :=
  fun _ _ _ hu _ _ hg h => (hg.sent t hu).trans h

theorem meets_plain {f : s.Ans → Req α} {Q : α → World × Hist → Prop}
    (hp : Plain s = true) (P' : s.Ans → World × Hist → Prop) (hs : ∀ r, (outline N).Stable t (P' r))
    (hx : ∀ w h r w', Inv w h → P (w, h) → (r, w') ∈ exec N t s w →
      Guar (some t) (w, h) (w', (observer N).step t s r w w' h) → P' r (w', (observer N).step t s r w w' h))
    (hk : ∀ r, Shows N t (f r) (P' r) Q) :
    Shows N t (ask s >>= f) P Q := by
  refine Meets.observed (Ω := outline N) P' hs (fun w h hi hP r w' he ha => ?_) hk
  obtain ⟨hi', hg⟩ := step_plain hp hi he ha
  exact ⟨hi', hg, hx w h r w' hi hP he hg⟩

theorem meets_firm {p : Req α} (hp : AllPlain p) (hP : ∀ u w w', Guar u w w' → P w → P w') : Shows N t p P fun _ => P := by
  refine Meets.observed_all (Ω := outline N) (fun u w w' _ _ _ => hP u w w') (fun s hs w h hi hw r w' he ha => ?_) hp
  obtain ⟨hi', hg⟩ := step_plain hs hi he ha
  exact ⟨hi', hg, hP _ _ _ hg hw⟩

theorem meets_all_plain {p : Req α} (hp : AllPlain p) : Shows N t p P fun _ _ => True :=
  Meets.pre (fun _ _ _ => trivial) (meets_firm hp fun _ _ _ _ h => h)

theorem meets_mark {p : Entry} {f : Option Bool → Req α} (hf : ∀ r, AllPlain (f r)) :
    Shows N t (ask (.db (.markCommitted p.token v exp)) >>= f) (fun w => (Claimed p w ∧ BodyIs p b w) ∧ Sent t b w) fun _ _ => True := by
  refine Meets.observed (Ω := outline N) (fun _ _ => True) (fun _ => stable_true) ?_ fun r => meets_all_plain (hf r)
  rintro w h hi ⟨⟨_, hb⟩, hsent⟩ r w' he -
  rcases execUpdate_cases he with ⟨rfl, rfl⟩ | ⟨rfl, rfl, _⟩
  · exact ⟨hi, guar_same (le_rfl), trivial⟩
  · exact ⟨inv_mark hi fun b' hb' => by rw [hb b' hb']; exact hsent,
      guar_update (.markCommitted p.token v exp) (markOriginCommitted w p.token v exp).1, trivial⟩

theorem meets_abandon {p : Entry} {f : Option Unit → Req α} (hf : ∀ r, AllPlain (f r)) (hc : flushCondition p ≠ .none) :
    Shows N t (ask (.attempt (.abandon p.token)) >>= f) (Claimed p) fun _ _ => True := by
  refine Meets.observed (Ω := outline N) (fun _ _ => True) (fun _ => stable_true) ?_ fun r => meets_all_plain (hf r)
  rintro w h hi ⟨_, hp⟩ r w' he -
  rcases execUpdate_cases he with ⟨rfl, rfl⟩ | ⟨rfl, rfl, _⟩
  · exact ⟨hi, guar_same (le_rfl), trivial⟩
  · -- a conditional flush is not one of a kept body
    have hn : h.issued p.token = none := by
      cases hb : h.issued p.token with
      | none => rfl
      | some b => exact absurd (hp b hb) hc
    exact ⟨inv_abandon hi hn, guar_update (.abandon p.token) (), trivial⟩

/-- An upload is refused by its precondition only if it has one, and what it has sent is its body.
-/
theorem upload_answer {w' : World} {body : Body} {pre : Precondition} {conditional : Bool} {r : Uploaded}
    (hm : (r, w') ∈ exec N t (.originUpload body pre conditional) w) :
    (r = .precondition → pre ≠ .none) ∧
      ∀ v, r = .ok v → Sent t body (w', (observer N).step t (.originUpload body pre conditional) r w w' h) := by
  refine ⟨?_, ?_⟩
  · rintro rfl rfl
    simp [exec, World.originAllows, Precondition.allows] at hm
  · rintro v rfl
    simp [Sent, observer]

theorem meets_flush (p : Entry) (owner : Nat) : Shows N t (flushOneNoLock g p owner) (Claimed p) fun _ _ => True := by
  have hrest : ∀ {s : Stmt} {a : Res}, Plain s = true → AllPlain (ask s >>= fun _ => pure a) :=
    fun hs => .stmt hs fun _ => trivial
  refine meets_plain rfl (fun r w => ∀ s sm, r = some s → liveRow s.wb s.now = some sm → versionOf sm = .pending p.token →
      Claimed p w ∧ BodyIs p sm.body.body w) ?_ ?_ ?_
  · intro r u w w' hu hi hi' hg h s sm hr hs hv
    exact stable_bodyIs p _ u w w' hu hi hi' hg (h s sm hr hs hv)
  · intro w h r w' hi hc hm hg s sm hr hs hv
    subst hr
    have hrow : s.wb = some sm := (filter_eq_some_iff.1 hs).1
    have hw : w.wb = s.wb := by
      rcases List.mem_cons.1 hm with hm | hm
      · cases hm; rfl
      · cases List.mem_singleton.1 hm
    exact ⟨hc.mono hg, fun b hb => (hi.body sm _ b (hw.trans hrow) hv hb).symm⟩
  · intro r
    split
    · exact fun _ _ _ => trivial
    · next s =>
      split
      · exact meets_all_plain (hrest rfl)
      · next sm hs =>
        split
        · exact meets_all_plain (hrest rfl)
        · next hv =>
          have hv : versionOf sm = .pending p.token := not_not.1 hv
          refine Meets.pre (fun w _ h => h s sm rfl hs hv) ?_
          refine meets_plain rfl (fun a w => (Claimed p w ∧ BodyIs p sm.body.body w) ∧ (a = .precondition → flushCondition p ≠ .none) ∧
              ∀ v, a = .ok v → Sent t sm.body.body w)
            (fun a => (stable_bodyIs p _).and ((stable_const _).and
              fun u w w' hu hi hi' hg h v hv => stable_sent _ u w w' hu hi hi' hg (h v hv)))
            (fun w h r w' hi hc hm hg => ⟨⟨hc.1.mono hg, hc.2.mono hc.1 hg⟩, upload_answer hm⟩) fun a => ?_
          split
          · by_cases hc : flushCondition p = .none
            · exact Meets.vacuous fun w _ h => h.2.1 rfl hc
            · exact Meets.pre (fun w _ h => h.1.1) (meets_abandon (fun _ => hrest rfl) hc)
          · exact meets_all_plain (hrest rfl)
          · exact meets_all_plain (hrest rfl)
          · next v =>
            refine meets_plain rfl (fun _ w => (Claimed p w ∧ BodyIs p sm.body.body w) ∧ Sent t sm.body.body w)
              (fun _ => (stable_bodyIs p _).and (stable_sent _))
              (fun w h r w' hi hc hm hg => ⟨⟨hc.1.1.mono hg, hc.1.2.mono hc.1.1 hg⟩, hc.2.2 v rfl⟩) fun now => ?_
            refine meets_mark fun r => ?_
            split
            · exact hrest rfl
            · split <;> trivial

/-! ## Requests -/

/-- A critical section may use what was known before the lock, if every step keeps it. -/
theorem routine (hP : ∀ u w w', Guar u w w' → P w → P w') : Routine (outline N) (policy N) t P fun _ _ => True where
  before hp := meets_firm (hp.mono plain_of_quiet) hP
  after _ _ _ hp := meets_all_plain (hp.mono plain_of_quiet)
  refused _ _ := ⟨trivial, trivial, trivial⟩

theorem meets_runPendingOnce (owner : Nat) : Shows N t (runPendingOnce g owner) P fun _ _ => True := by
  refine meets_plain rfl (fun r w => ∀ p, r = some (some p) → Claimed p w) ?_ ?_ fun r => ?_
  · exact fun r u w w' hu hi hi' hg h p hp => (h p hp).mono hg
  · intro w h r w' hi _ hm hg p hp
    subst hp
    rcases execUpdate_cases hm with ⟨hr, _⟩ | ⟨hr, _, _⟩
    · cases hr
    · have hc : (claimPendingUploads w owner).1 = some p := (some.inj hr).symm
      obtain ⟨e, he, rfl⟩ : ∃ e, w.outbox = some e ∧
          p = { e with leaseOwner := some owner, leaseUntil := some (w.now + 5 * minute) } := by
        simp only [claimPendingUploads] at hc
        split at hc
        · next e he =>
          split at hc
          · exact ⟨e, he, (some.inj hc).symm⟩
          · cases hc
        · cases hc
      have hcl : Claimed e (w, h) := ⟨hi.tokens.entry e he, fun b hb => hi.entry e b he hb⟩
      exact hcl.mono hg
  · split
    · next p =>
      refine Meets.pre (fun w _ h => h p rfl) ?_
      exact (routine fun u w w' hg h => h.mono hg).withLockWrite (meets_flush p owner)
    · exact fun _ _ _ => trivial

theorem meets_completeConditional (body : Body) (exp : Nat) (base : Option OriginObj) :
    Shows N t (completeConditional N g body exp base) P fun _ _ => True := by
  refine meets_plain rfl (fun r w => ∀ e, r = some e → Claimed e w) ?_ ?_ fun r => ?_
  · exact fun r u w w' hu hi hi' hg h e he => (h e he).mono hg
  · intro w h r w' hi _ hm hg e he
    subst he
    rcases execUpdate_cases hm with ⟨hr, _⟩ | ⟨hr, hw, _⟩
    · cases hr
    · -- the row has an expiry, so its token is not one to be kept
      cases some.inj hr
      subst hw
      refine ⟨Nat.lt_succ_self _, fun b hb => ?_⟩
      exact absurd (hi.below w.fresh b hb) (Nat.lt_irrefl _)
  · split
    · exact fun _ _ _ => trivial
    · next e =>
      have hfence := meets_firm (N := N) (t := t) (plain_fenceReadCache (N := N)) fun u w w' hg (h : Claimed e w) => h.mono hg
      refine Meets.pre (fun w _ h => h e rfl) (hfence.bind fun _ => (meets_flush e g.id).bind fun r => ?_)
      refine meets_all_plain ?_
      split
      · exact .stmt rfl fun _ => trivial
      all_goals trivial

theorem meets_request (hp : IsRequest N p) : Shows N t p (fun _ => True) fun _ _ => True := by
  cases hp with
  | upload g body pre => exact meets_all_plain ((upload_puts body pre).mono plain_of_puts)
  | complete g body pre =>
    refine (routine fun _ _ _ _ h => h).complete (meets_all_plain (.stmt rfl fun r => ?_)) (meets_completeConditional body)
    split
    · trivial
    · exact plain_fenceReadCache.bind fun _ => trivial
  | delete g => exact meets_all_plain (delete_puts.mono plain_of_puts)
  | deleteMany g => exact meets_all_plain (deleteMany_puts.mono plain_of_puts)
  | flush g owner => exact meets_runPendingOnce owner
  | head g => exact meets_all_plain (head_reads.mono plain_of_reads)
  | openObject g n rng => exact meets_all_plain ((openObject_reads n rng).mono plain_of_reads)

/-! ## Sweeps -/

theorem inv_env {e : Ev} {w' : World} (hi : Inv w h) (he : env N e w = some w') : Inv w' h := by
  have hrow : w'.wb = w.wb ∨ _ := env_row he .write
  refine hi.shrink ⟨(env_keeps he).fresh.ge, fun r' n hr hv => ?_, fun x' hx => ?_⟩ fun n b hp => ?_
  · rcases hrow with hw | ⟨_, hw, _⟩
    · exact ⟨r', hw ▸ hr, hv, rfl⟩
    · cases hw.symm.trans hr
  · obtain ⟨f, ho, hf⟩ := env_outbox he
    obtain ⟨x, hx', rfl⟩ := map_eq_some_iff.1 (ho ▸ hx)
    exact ⟨x, hx', (hf x).1, by rw [flushCondition, (hf x).2.1, (hf x).2.2, flushCondition]⟩
  · obtain ⟨r, hr, hv, hb, hx⟩ := hi.kept n b hp
    rcases hrow with hw | ⟨_, _, hx'⟩
    · exact ⟨r, hw.trans hr, hv, hb, hx⟩
    · exact absurd hx (hx' r hr)

theorem outline_sound (N : Naming) : (outline N).Sound (policy N) where
  idle_stable _ := stable_true
  spawn _ _ _ _ _ hp := ⟨fun _ => True, stable_true, trivial, meets_request hp⟩
  done _ _ _ hi _ := ⟨hi, guar_same (le_rfl), trivial⟩
  env e := by
    rintro ⟨w, h⟩ ⟨w', h'⟩ hi - hx
    obtain ⟨he, rfl⟩ := Observer.env_eq_some.1 hx
    exact ⟨inv_env hi he, guar_same (env_keeps he).fresh.ge⟩

/-- **Acknowledged write-back bodies stay.** In every run in which no refresh of a write-back row
finds a pending one, the newest body published without expiry stays in the row, pending and without
expiry, until a flush has uploaded it or a later request replaces it. -/
theorem retained (N : Naming) (w₀ : World) (hw : TokensBelow w₀) (c : (observer N).sys.Conf)
    (hr : Reaches (policy N) (w₀, Hist.init) c) : Kept c.world.1 c.world.2 := by
  have hi : Inv w₀ Hist.init :=
    ⟨nofun, nofun, nofun, nofun, nofun, hw⟩
  exact ((outline_sound N).reaches (w := (w₀, Hist.init)) hi (fun _ => trivial) hr).inv.kept

instance (N : Naming) : (policy N).Decides where
  step t s w r := by
    unfold policy
    dsimp only
    split
    · exact NotPending.decidable w.1
    · exact .isTrue trivial
  env _ _ := .isTrue trivial

theorem tokensBelow_empty : TokensBelow .empty := ⟨nofun, nofun⟩

/-- A Head on another gateway refreshes the row of a small object; then a write-back PUT, and an
expiry sweep an hour later. -/
def putSchedule : List (Move (observer sampleNaming).sys) :=
  .spawn 0 (uploadWithOptions sampleNaming (sampleGateway 0) ⟨1, 5⟩ .none) :: List.replicate 10 (.run 0 0) ++
    .done 0 :: .spawn 1 (head (sampleGateway 1)) :: List.replicate 6 (.run 1 0) ++
    .done 1 :: .spawn 0 (uploadWithOptions sampleNaming (sampleGateway 0) largeBody .none) :: List.replicate 8 (.run 0 0) ++
    [.done 0, .env (.tick (60 * minute)), .env (.expire .write)]

theorem retained_put : ∃ c : (observer sampleNaming).sys.Conf, Reaches (policy sampleNaming) (World.empty, Hist.init) c ∧
    c.world.2.prot.map Prod.snd = some largeBody ∧ Kept c.world.1 c.world.2 := by
  have hs : (policy sampleNaming).Starts putSchedule :=
    And.intro (fun _ => IsRequest.upload _ _ _) (And.intro (fun _ => IsRequest.head _)
      (And.intro (fun _ => IsRequest.upload _ _ _) trivial))
  obtain ⟨c, hr, hc⟩ := reaches_of_replay hs (w := (World.empty, Hist.init))
    (fun c => decide (c.world.2.prot.map Prod.snd = some largeBody)) (by decide +kernel)
  exact ⟨c, hr, by simpa using hc, retained _ _ tokensBelow_empty c hr⟩

instance (N : Naming) : (everyRun N).Decides where
  step _ _ _ _ := .isTrue trivial
  env _ _ := .isTrue trivial

/-- A Head on another gateway has the row of a small object confirmed by the origin; a write-back
PUT is acknowledged; the Head refreshes the row, which is now the pending one. Half an hour later
the sweep takes it. -/
def touchedSchedule : List (Move (observer sampleNaming).sys) :=
  [.spawn 0 (uploadWithOptions sampleNaming (sampleGateway 0) ⟨1, 5⟩ .none),
    .run 0 0, .run 0 0, .run 0 0, .run 0 0, .run 0 0, .run 0 0, .run 0 0, .run 0 0, .run 0 0, .run 0 0, .done 0,
    .spawn 1 (head (sampleGateway 1)), .run 1 0, .run 1 0, .run 1 0, .run 1 0, .run 1 0,
    .spawn 0 (uploadWithOptions sampleNaming (sampleGateway 0) largeBody .none),
    .run 0 0, .run 0 0, .run 0 0, .run 0 0, .run 0 0, .run 0 0, .run 0 0, .run 0 0, .done 0,
    .run 1 0, .done 1,
    .env (.tick originTombstoneTTL), .env (.expire .write)]

theorem touched_pending_lost : ¬ ∀ (N : Naming) (w₀ : World), TokensBelow w₀ → ∀ c : (observer N).sys.Conf,
    Reaches (everyRun N) (w₀, Hist.init) c → Kept c.world.1 c.world.2 := by
  intro hall
  have hs : (everyRun sampleNaming).Starts touchedSchedule :=
    And.intro (fun _ => IsRequest.upload _ _ _) (And.intro (fun _ => IsRequest.head _)
      (And.intro (fun _ => IsRequest.upload _ _ _) trivial))
  obtain ⟨c, hr, hc⟩ := reaches_of_replay hs (w := (World.empty, Hist.init))
    (fun c => decide (c.world.1.wb = none ∧ c.world.2.prot.isSome)) (by decide +kernel)
  obtain ⟨hw, hp⟩ := of_decide_eq_true hc
  obtain ⟨⟨n, b⟩, hp⟩ := isSome_iff_exists.1 hp
  obtain ⟨r, hr', _⟩ := hall _ _ tokensBelow_empty c hr n b hp
  cases hw.symm.trans hr'

end Retained

end Pgvs3.Tier
