import Pgvs3.Tier.Request
/-!
# What requests ask

`Stmt.quiet` are the statements that change neither the store nor the origin: the locks and the
queries before a write. `Stmt.reads` are those of Head and Open (`head_reads`, `openObject_reads`),
`Stmt.issued` those of any request (`IsRequest.issued`).
-/

namespace Pgvs3.Tier

open Conc

/-- No update, no write or delete at the origin, no coalesced call. -/
def Stmt.quiet : Stmt → Bool
  | .db _ | .attempt _ | .originUpload _ _ _ | .originDelete | .join _ | .finish _ _ | .wait => false
  | _ => true

def Stmt.reads : Stmt → Bool
  | .lockSession | .unlockSession | .originUpload _ _ _ | .originDelete => false
  | .db u => match u with
    | .publish .read (.fill _ _) _ _ _ | .retire _ | .acquireLease | .remember _ _ _ => true
    | _ => false
  | .attempt u => match u with
    | .retire _ | .deleteExpected _ | .touch _ _ | .releaseLease _ | .forget _ | .putChunk _ _ => true
    | _ => false
  | _ => true

/-- Every statement of the program is one of `φ`. -/
abbrev Asks (φ : Stmt → Bool) {α : Type} (p : Req α) : Prop := p.All fun s => φ s = true

theorem Asks.mono {φ ψ : Stmt → Bool} (h : ∀ s, φ s = true → ψ s = true) {α : Type} {p : Req α} (hp : Asks φ p) : Asks ψ p :=
  Prog.All.mono h hp

variable {N : Naming} {g : Gateway}

/-! ## Before and after a write -/

theorem lockWrite_quiet : Asks Stmt.quiet (lockWrite g) := by
  refine .stmt rfl fun _ => .stmt rfl fun b => ?_
  split
  · trivial
  · exact .stmt rfl fun _ => trivial

theorem releaseWrite_quiet : Asks Stmt.quiet (releaseWrite g) := .stmt rfl fun _ => .stmt rfl fun _ => trivial

theorem resolvePrecondition_quiet (pre : Precondition) : Asks Stmt.quiet (resolvePrecondition pre) := by
  unfold resolvePrecondition
  split
  · trivial
  · refine .stmt rfl fun s => ?_
    split <;> trivial

/-! ## Fills -/

theorem probe_reads : Asks Stmt.reads probe := by
  refine .stmt rfl fun s => ?_
  split
  · trivial
  · split
    · trivial
    · split <;> trivial

theorem acquireFill_reads : ∀ n, Asks Stmt.reads (acquireFill n)
  | 0 => trivial
  | n + 1 => by
    refine probe_reads.bind fun p => ?_
    split
    · trivial
    · refine .stmt rfl fun a => ?_
      split
      · trivial
      · exact acquireFill_reads n
      · refine probe_reads.bind fun p => ?_
        split
        · exact .stmt rfl fun _ => trivial
        · trivial

theorem fetch_reads (owner : Nat) : Asks Stmt.reads (fetch N g owner) := by
  refine .stmt rfl fun f => ?_
  split
  · refine .stmt rfl fun now => .stmt rfl fun r => ?_
    split
    · trivial
    · trivial
    · refine .stmt rfl fun s => ?_
      split
      · trivial
      · split <;> trivial
  · trivial
  · trivial

theorem fillOnce_reads (n : Nat) : Asks Stmt.reads (fillOnce N g n) := by
  refine .stmt rfl fun _ => (acquireFill_reads n).bind fun a => ?_
  split
  · exact .stmt rfl fun _ => trivial
  · exact (fetch_reads _).bind fun r => .stmt rfl fun _ => .stmt rfl fun _ => .stmt rfl fun _ => trivial

theorem coalesceFill_reads (n : Nat) : Asks Stmt.reads (coalesceFill N g n) := by
  refine .stmt rfl fun b => ?_
  split
  · exact (fillOnce_reads n).bind fun _ => .stmt rfl fun _ => trivial
  · exact .stmt rfl fun _ => trivial

/-! ## Head and Open -/

def Stmt.looks : Stmt → Bool
  | .db (.publish _ _ _ _ _) => false
  | s => s.reads

def Res.answers : Res → Bool
  | .written _ | .deleted => false
  | _ => true

def resolves : Except Res Resolution → Bool
  | .error a => a.answers
  | .ok _ => true

section Reads

open Prog (Built)

variable {N : Naming} {g : Gateway} {C : (β : Type) → Req β → Prop} (hs : ∀ s, s.looks = true → C _ (ask s))

include hs

theorem coalesceHead_built : Built C (fun _ => True) (coalesceHead g) := by
  refine .bind (hs _ rfl) fun b => ?_
  split
  · exact .bind (hs _ rfl) fun f => .bind (hs (.finish ⟨g.id, .head⟩ f) rfl) fun _ => .ret trivial
  · exact .bind (hs _ rfl) fun _ => .ret trivial

theorem validate_built (deleteStale : Bool) (m : Option (Side × Row)) : Built C (resolves · = true) (validate g deleteStale m) := by
  refine .bind (hs _ rfl) fun now => (coalesceHead_built hs).andThen fun f _ => ?_
  split
  · unfold validateFound
    split
    · split
      · refine .bind (hs _ rfl) fun r => ?_
        split <;> exact .ret rfl
      · exact .ret rfl
    · split
      · split
        · exact .ret rfl
        · exact .bind (hs _ rfl) fun _ => .ret rfl
      · unfold dropStale
        split
        · split
          · exact .ret rfl
          · refine .bind (hs _ rfl) fun r => ?_
            split <;> exact .ret rfl
        · split
          · exact .bind (hs _ rfl) fun _ => .ret rfl
          · exact .ret rfl
  · unfold validateMissing
    split
    · split
      · exact .ret rfl
      · exact .bind (hs _ rfl) fun _ => .ret rfl
    · exact .ret rfl
  · exact .ret rfl

theorem resolveCache_built (deleteStale skip : Bool) : Built C (resolves · = true) (resolveCache g deleteStale skip) := by
  refine .bind (hs _ rfl) fun s => ?_
  split
  · exact .ret rfl
  · split
    · split
      · exact .ret rfl
      · exact .ret rfl
      · split
        · exact .ret rfl
        · exact validate_built hs _ _
    · split
      · exact .ret rfl
      · unfold resolveMiss
        split
        · refine .bind (hs _ rfl) fun m => ?_
          split
          · exact .ret rfl
          · split
            · exact .ret rfl
            · exact validate_built hs _ _
        · exact validate_built hs _ _

theorem head_built : Built C (·.answers = true) (head g) := by
  refine (resolveCache_built hs false false).andThen fun e he => ?_
  split
  · exact .ret he
  · exact .ret rfl

theorem openCached_built (side : Side) (r : Row) : Built C (·.answers = true) (openCached side r) := by
  refine .bind (hs _ rfl) fun l => ?_
  split
  · exact .ret rfl
  · split <;> exact .ret rfl

theorem passThrough_built (etag : Text) : Built C (·.answers = true) (passThrough etag) := by
  refine .bind (hs _ rfl) fun f => ?_
  split <;> exact .ret rfl

theorem openPending_built (rng : ByteRange) : Built C (·.answers = true) (openPending rng) := by
  refine .bind (hs _ rfl) fun f => ?_
  split
  · split
    · exact .ret rfl
    · split
      · exact .ret rfl
      · exact passThrough_built hs _
  · exact .ret rfl
  · exact .ret rfl

theorem openRange_built (v : Text) (rng : ByteRange) : Built C (·.answers = true) (openRange g v rng) := by
  refine .bind (hs _ rfl) fun c => ?_
  split
  · exact .ret rfl
  · exact .ret rfl
  · split
    · exact openPending_built hs rng
    · refine .bind (hs _ rfl) fun f => ?_
      split
      · split
        · exact .bind (hs _ rfl) fun _ => .ret rfl
        · exact .bind (hs _ rfl) fun _ => openPending_built hs rng
      · exact .bind (hs _ rfl) fun _ => openPending_built hs rng
      · exact .ret rfl

theorem openFilled_built (r : Row) (rng : ByteRange) : Built C (·.answers = true) (openFilled r rng) := by
  refine .bind (hs _ rfl) fun s => ?_
  split
  · split
    · exact .ret rfl
    · split
      · exact .ret rfl
      · exact openCached_built hs _ _
  · split
    · exact .ret rfl
    · exact openCached_built hs _ _

theorem openObject_built {n : Nat} (hfill : C _ (coalesceFill N g n)) (rng : ByteRange) :
    Built C (·.answers = true) (openObject N g n rng) := by
  refine (resolveCache_built hs true _).andThen fun e he => ?_
  split
  · exact .ret he
  · split
    · unfold openMiss
      split
      · refine .bind (hs _ rfl) fun f => ?_
        split <;> exact .ret rfl
      · refine .bind hfill fun f => ?_
        split <;> first | exact .ret rfl | exact openPending_built hs rng | exact openFilled_built hs _ rng
    · split
      · exact .ret rfl
      · split
        · unfold openZero
          split
          · exact .ret rfl
          · refine .bind hfill fun f => ?_
            split <;> first | exact .ret rfl | exact openPending_built hs rng | skip
            split
            · exact openPending_built hs rng
            · exact .ret rfl
        · exact passThrough_built hs _
        · exact openRange_built hs _ rng
        · unfold openResolved
          split
          · exact openCached_built hs _ _
          · split
            · exact passThrough_built hs _
            · refine .bind hfill fun f => ?_
              split <;> first | exact .ret rfl | exact passThrough_built hs _ | exact openPending_built hs rng | skip
              split
              · exact openPending_built hs rng
              · exact openFilled_built hs _ rng

end Reads

theorem Stmt.reads_of_looks (s : Stmt) (hs : s.looks = true) : s.reads = true := by
  cases s with
  | db u => cases u <;> first | exact hs | cases hs
  | _ => exact hs

theorem head_reads : Asks Stmt.reads (head g) :=
  (head_built fun s hs => ⟨s.reads_of_looks hs, fun _ => trivial⟩).all

theorem openObject_reads (n : Nat) (rng : ByteRange) : Asks Stmt.reads (openObject N g n rng) :=
  (openObject_built (fun s hs => ⟨s.reads_of_looks hs, fun _ => trivial⟩) (coalesceFill_reads n) rng).all

/-! ## Uploads and deletes -/

def Stmt.puts : Stmt → Bool
  | .db (.publish .write _ _ _ _) | .db (.publish .read .tombstone _ _ _) | .attempt (.publish .read .tombstone _ _ _)
  | .attempt .clearPending | .originUpload _ _ _ | .originDelete => true
  | s => s.quiet

variable {p : Req Res} {φ : Stmt → Bool}

theorem Stmt.puts_of_quiet (s : Stmt) (hs : s.quiet = true) : s.puts = true := by
  cases s <;> first | rfl | cases hs

theorem Asks.withLockWrite (hφ : ∀ s, s.quiet = true → φ s = true) (hp : Asks φ p) : Asks φ (withLockWrite g p) := by
  refine (lockWrite_quiet.mono hφ).bind fun b => ?_
  split
  · exact hp.bind fun _ => (releaseWrite_quiet.mono hφ).bind fun _ => trivial
  · trivial

theorem Asks.requireWrite (hp : Asks φ p) : Asks φ (requireWrite g p) := by
  unfold Tier.requireWrite
  split
  · trivial
  · exact hp

theorem fenceReadCache_puts : Asks Stmt.puts (fenceReadCache N) := .stmt rfl fun _ => .stmt rfl fun _ => trivial

theorem storeSpooled_puts (k : PubKind) (body : Body) : Asks Stmt.puts (storeSpooled N g k body) :=
  .stmt rfl fun _ => .stmt rfl fun _ => trivial

theorem upload_puts (body : Body) (pre : Precondition) : Asks Stmt.puts (uploadWithOptions N g body pre) := by
  refine .requireWrite (.withLockWrite Stmt.puts_of_quiet (((resolvePrecondition_quiet pre).mono Stmt.puts_of_quiet).bind fun e => ?_))
  split
  · trivial
  · split
    · refine (storeSpooled_puts .pending body).bind fun m => ?_
      split
      · exact fenceReadCache_puts.bind fun _ => trivial
      · trivial
    · refine .stmt rfl fun a => ?_
      split
      · trivial
      · trivial
      · trivial
      · refine (storeSpooled_puts _ body).bind fun m => fenceReadCache_puts.bind fun _ => .stmt rfl fun _ => ?_
        split <;> trivial

theorem deleteLocked_puts : Asks Stmt.puts (deleteLocked N) := by
  refine .stmt rfl fun b => ?_
  split
  · refine .stmt rfl fun now => .stmt rfl fun r => ?_
    split
    · trivial
    · refine .stmt rfl fun _ => .stmt rfl fun r' => ?_
      split
      · trivial
      · exact .stmt rfl fun _ => trivial
  · trivial

theorem delete_puts : Asks Stmt.puts (delete N g) := .requireWrite (.withLockWrite Stmt.puts_of_quiet deleteLocked_puts)

theorem deleteMany_puts : Asks Stmt.puts (deleteMany N g) :=
  .requireWrite (.stmt rfl fun _ => deleteLocked_puts.bind fun _ => .stmt rfl fun _ => trivial)

/-- Every request of the tier on the key. -/
inductive IsRequest (N : Naming) : Req Res → Prop
  | upload (g : Gateway) (body : Body) (pre : Precondition) : IsRequest N (uploadWithOptions N g body pre)
  | complete (g : Gateway) (body : Body) (pre : Precondition) : IsRequest N (completeUpload N g body pre)
  | delete (g : Gateway) : IsRequest N (delete N g)
  | deleteMany (g : Gateway) : IsRequest N (deleteMany N g)
  | flush (g : Gateway) (owner : Nat) : IsRequest N (runPendingOnce g owner)
  | head (g : Gateway) : IsRequest N (head g)
  | openObject (g : Gateway) (n : Nat) (rng : ByteRange) : IsRequest N (openObject N g n rng)

/-! ## Every request -/

/-- The updates of requests: only fills and tombstones go to the read cache. -/
def Update.issued : Update → Bool
  | .publish .read (.normal _) _ _ _ | .publish .read .pending _ _ _ => false
  | _ => true

def Stmt.issued : Stmt → Bool
  | .db u | .attempt u => u.issued
  | _ => true

section

variable {N : Naming} {g : Gateway}

theorem Stmt.issued_of_quiet (s : Stmt) (hs : s.quiet = true) : s.issued = true := by
  cases s <;> first | rfl | cases hs

theorem Stmt.issued_of_reads (s : Stmt) (hs : s.reads = true) : s.issued = true := by
  cases s with
  | db u =>
    cases u with
    | publish side k etag body exp =>
      cases side with
      | write => rfl
      | read => cases k <;> first | rfl | cases hs
    | _ => rfl
  | attempt u =>
    cases u with
    | publish side k etag body exp => cases hs
    | _ => rfl
  | _ => rfl

theorem Stmt.issued_of_puts (s : Stmt) (hs : s.puts = true) : s.issued = true := by
  cases s with
  | db u | attempt u =>
    cases u with
    | publish side k etag body exp => cases side <;> cases k <;> first | rfl | cases hs
    | _ => rfl
  | _ => rfl

theorem flushOneNoLock_issued (p : Entry) (owner : Nat) : Asks Stmt.issued (flushOneNoLock g p owner) := by
  refine .stmt rfl fun s => ?_
  split
  · trivial
  · split
    · exact .stmt rfl fun _ => trivial
    · split
      · exact .stmt rfl fun _ => trivial
      · refine .stmt rfl fun a => ?_
        split
        · exact .stmt rfl fun _ => .stmt rfl fun _ => trivial
        · exact .stmt rfl fun _ => trivial
        · exact .stmt rfl fun _ => trivial
        · refine .stmt rfl fun now => .stmt rfl fun r => ?_
          split
          · exact .stmt rfl fun _ => trivial
          · split <;> trivial

theorem completeConditional_issued (body : Body) (exp : Nat) (base : Option OriginObj) :
    Asks Stmt.issued (completeConditional N g body exp base) := by
  refine .stmt rfl fun r => ?_
  split
  · trivial
  · refine (fenceReadCache_puts.mono Stmt.issued_of_puts).bind fun _ => (flushOneNoLock_issued _ g.id).bind fun a => ?_
    split
    · exact .stmt rfl fun _ => trivial
    · trivial
    · trivial
    · trivial

theorem completeLocked_issued (body : Body) (pre : Precondition) (exp : Nat) : Asks Stmt.issued (completeLocked N g body pre exp) := by
  have hchecked : ∀ base, Asks Stmt.issued (completeChecked N g body pre exp base) := by
    intro base
    refine ((resolvePrecondition_quiet pre).mono Stmt.issued_of_quiet).bind fun e => ?_
    split
    · trivial
    · split
      · exact completeConditional_issued body exp base
      · trivial
  unfold completeLocked
  split
  · refine .stmt rfl fun r => ?_
    split
    · trivial
    · exact (fenceReadCache_puts.mono Stmt.issued_of_puts).bind fun _ => trivial
  · refine .stmt rfl fun f => ?_
    split
    · exact hchecked _
    · exact hchecked _
    · trivial

theorem IsRequest.issued (hp : IsRequest N p) : Asks Stmt.issued p := by
  cases hp with
  | upload g body pre => exact (upload_puts body pre).mono Stmt.issued_of_puts
  | complete g body pre =>
    exact .requireWrite (.stmt rfl fun _ => Asks.withLockWrite Stmt.issued_of_quiet (completeLocked_issued body pre _))
  | delete g => exact delete_puts.mono Stmt.issued_of_puts
  | deleteMany g => exact deleteMany_puts.mono Stmt.issued_of_puts
  | flush g owner =>
    refine .stmt rfl fun r => ?_
    split
    · exact Asks.withLockWrite Stmt.issued_of_quiet (flushOneNoLock_issued _ owner)
    · trivial
  | head g => exact head_reads.mono Stmt.issued_of_reads
  | openObject g n rng => exact (openObject_reads n rng).mono Stmt.issued_of_reads

end

end Pgvs3.Tier
