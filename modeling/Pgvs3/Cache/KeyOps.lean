import Pgvs3.Cache.MSet
import Pgvs3.Conc.Linearization
import Pgvs3.Conc.Machine
import Pgvs3.Data.Text
import Pgvs3.Store.Publish
/-!
# The operations on one cache key

`Place` goes from the read of `mutate` (`reading`, `fetched`) through the transaction (`begun` to
`drafted`).

A statement and a transaction fix `now()` when they begin; a read sees the row as it was committed
at its snapshot, which is later. Every writer keeps the key's advisory lock to the end of its
transaction. The sweep takes no advisory lock and passes over a locked row. A large value is
streamed between the beginning of the transaction and `publish_value`.

The row's body stands for its content, inline or in files. MD5 is left open. Rows of the key carry
no origin ETag.
-/

namespace Pgvs3.KeyOps

open Conc (Event Status)
open Data (formatBytes parseBytes)

structure Lib where
  md5 : Bytes → Text

inductive Err where
  | notInteger
  | contention
  | offset
deriving DecidableEq, Repr

inductive Reply where
  | wrote (wrote : Bool)
  | previous (value : Option Bytes) (wrote : Bool)
  | size (n : Nat)
  | integer (n : Int)
  | value (v : Option Bytes)
  | deleted (n : Nat)
deriving DecidableEq, Repr

/-- `NX` and `XX`. -/
inductive When where
  | always
  | nx
  | xx
deriving DecidableEq, Repr

def When.precondition : When → Precondition
  | always => .none
  | nx => .ifAbsent
  | xx => .ifPresent

/-- `CacheSetOptions` (`store/cache.go:140-145`). -/
structure SetOptions where
  cond : When
  expiresAt : Option Nat
  keepTTL : Bool
deriving DecidableEq, Repr

inductive Op where
  | set (val : Bytes) (opts : SetOptions)
  | getSet (val : Bytes) (opts : SetOptions)
  | append (suffix : Bytes)
  | setRange (off : Nat) (val : Bytes)
  | incrBy (delta : Int)
  | getDel
  | del
deriving DecidableEq, Repr

/-! ## The sequential key -/

/-- What a client can know of a key that exists. -/
structure Item where
  value : Bytes
  expiresAt : Option Nat
deriving DecidableEq, Repr

def Item.live (it : Item) (now : Nat) : Bool :=
  match it.expiresAt with
  | none => true
  | some e => now < e

def expire (now : Nat) (s : Option Item) : Option Item := s.filter (·.live now)

def When.allows : When → Bool → Bool
  | always, _ => true
  | nx, found => !found
  | xx, found => found

def SetOptions.expiry (o : SetOptions) : Option Item → Option Nat
  | some it => if o.keepTTL then it.expiresAt else o.expiresAt
  | none => o.expiresAt

/-- The value with `val` written at `off`, zeros before it where it was shorter. -/
def overwrite (current : Bytes) (off : Nat) (val : Bytes) : Bytes :=
  let padded := current ++ List.replicate (off + val.length - current.length) 0
  padded.take off ++ val ++ padded.drop (off + val.length)

def minInt64 : Int := -2 ^ 63

def maxInt64 : Int := 2 ^ 63 - 1

/-- `store/cache.go:605-614`. -/
def cacheAdd (current : Bytes) (delta : Int) : Except Err Int :=
  match parseBytes current with
  | none => .error .notInteger
  | some cur =>
    if (0 < delta ∧ maxInt64 - delta < cur) ∨
      (delta < 0 ∧ cur < minInt64 - delta) then .error .notInteger
    else .ok (cur + delta)

/-- An absent counter is zero. -/
def increment (delta : Int) : Option Bytes → Except Err Int
  | none => .ok delta
  | some current => cacheAdd current delta

/-- One operation alone: its reply and what it leaves of the key. -/
def Op.run (op : Op) (s : Option Item) : Except Err (Reply × Option Item) :=
  match op with
  | .set val opts =>
    if opts.cond.allows s.isSome then .ok (.wrote true, some ⟨val, opts.expiry s⟩)
      else .ok (.wrote false, s)
  | .getSet val opts =>
    if opts.cond.allows s.isSome
      then .ok (.previous (s.map Item.value) true, some ⟨val, opts.expiry s⟩)
    else .ok (.previous (s.map Item.value) false, s)
  | .append suffix =>
    let v := (s.map Item.value).getD [] ++ suffix
    .ok (.size v.length, some ⟨v, s.bind Item.expiresAt⟩)
  | .setRange off val =>
    let v := overwrite ((s.map Item.value).getD []) off val
    .ok (.size v.length, some ⟨v, s.bind Item.expiresAt⟩)
  | .incrBy delta =>
    match increment delta (s.map Item.value) with
    | .error e => .error e
    | .ok n => .ok (.integer n, some ⟨formatBytes n, s.bind Item.expiresAt⟩)
  | .getDel => .ok (.value (s.map Item.value), none)
  | .del => .ok (.deleted (if s.isSome then 1 else 0), none)

/-- The key as a sequential object on a clock. -/
def spec : Conc.SeqSpec Op Reply (Option Item) := fun now s op => (op.run (expire now s)).toOption

/-! ## The operations as they are implemented -/

/-- The cache's rows; there is no origin version. -/
abbrev Row := ObjectRow Unit Bytes

/-- `cacheMutation`. `reply` is what the caller makes of the previous value and, when one was
written, of the next (`store/cache.go:666-671`). -/
structure Mutation where
  opts : SetOptions
  inlineOnly : Bool
  retries : Nat
  apply : Option Bytes → Except Err Bytes
  reply : Option Bytes → Option Bytes → Reply

def cacheMutationRetries : Nat := 32

def keepTTL : SetOptions := ⟨.always, none, true⟩

/-- The operations that go through `mutate` (`store/cache.go:741-748`). -/
def Op.mutation : Op → Option Mutation
  | .getSet val opts => some
    { opts := opts, inlineOnly := false, retries := cacheMutationRetries
      apply := fun _ => .ok val
      reply := fun previous next => .previous previous next.isSome }
  | .append suffix => some
    { opts := keepTTL, inlineOnly := false, retries := cacheMutationRetries
      apply := fun current => .ok (current.getD [] ++ suffix)
      reply := fun _ next => .size (next.getD []).length }
  | .setRange off val => some
    { opts := keepTTL, inlineOnly := false, retries := cacheMutationRetries
      apply := fun current => .ok (overwrite (current.getD []) off val)
      reply := fun _ next => .size (next.getD []).length }
  | .incrBy delta => some
    { opts := keepTTL, inlineOnly := true, retries := 0
      apply := fun current => (increment delta current).map formatBytes
      -- `next` is the variable that the last call of `apply` has set
      reply := fun previous _ => .integer ((increment delta previous).toOption.getD 0) }
  | .set _ _ | .getDel | .del => none

/-- `off > math.MaxInt - len(val)`. -/
def Op.outOfRange : Op → Bool
  | .setRange off val => 2 ^ 63 - 1 < off + val.length
  | _ => false

def publishArgs (lib : Lib) (val : Bytes) (opts : SetOptions) (cond : Precondition) :
    PublishArgs Unit Bytes :=
  { etag := lib.md5 val, body := val, cond := cond, expiresAt := opts.expiresAt, keepTTL := opts.keepTTL
    originETag := none, expected := none }

/-- A call of `writeCacheValue`: what it publishes, what the operation then returns, and which round
of `mutate` made it. -/
structure Write where
  args : PublishArgs Unit Bytes
  reply : Reply
  attempt : Option Nat
deriving DecidableEq, Repr

/-- `store/cache.go:218-231`. -/
def setWrite (lib : Lib) (val : Bytes) (opts : SetOptions) : Write :=
  ⟨publishArgs lib val opts opts.cond.precondition, .wrote true, none⟩

/-- `store/cache.go:673-678`. -/
inductive Verdict where
  | fail (e : Err)
  | refuse (r : Reply)
  | write (args : PublishArgs Unit Bytes) (r : Reply)
deriving DecidableEq, Repr

/-- Values above the inline limit are in files. -/
def inlined (r : Row) : Bool := r.body.length ≤ Cache.inlineMax

namespace Mutation

/-- What the write expects of the row that was read. -/
def expects : Option Row → Precondition
  | some r => .ifMatch r.etag
  | none => .ifAbsent

def judge (lib : Lib) (m : Mutation) (seen : Option Row) : Verdict :=
  if m.inlineOnly && seen.any (!inlined ·) then .fail .notInteger
  else if !m.opts.cond.precondition.allows seen.isSome (etagOld seen)
    then .refuse (m.reply (seen.map ObjectRow.body) none)
  else match m.apply (seen.map ObjectRow.body) with
    | .error e => .fail e
    | .ok next =>
      .write (publishArgs lib next m.opts (expects seen))
      (m.reply (seen.map ObjectRow.body) (some next))

end Mutation

/-- The transactions that take the key's lock. -/
inductive Tx where
  | publish (wr : Write)
  | getDel
  | del
deriving DecidableEq, Repr

inductive Place where
  | called
  /-- `mutate` is about to read. -/
  | looking (attempt : Nat)
  /-- The read has begun and its `now()` is fixed. -/
  | reading (attempt began : Nat)
  /-- The read has its answer; `Live` has not looked at the clock. -/
  | fetched (attempt : Nat) (row : Option Row)
  | ready (wr : Write)
  /-- The transaction has begun and its `now()` is fixed. -/
  | begun (tx : Tx) (began : Nat)
  | locked (tx : Tx) (began : Nat)
  /-- `publish_value` is past its tests. -/
  | checked (wr : Write) (began : Nat)
  /-- `GetDel` has deleted the row and has not looked at the clock. -/
  | deleted (row : Row)
  /-- The row is written or deleted, by what the clock said at `judged`, and not committed. -/
  | drafted (judged : Nat) (draft : Option Row) (reply : Reply)
  | done (result : Except Err Reply)

inductive Client where
  | idle
  | busy (id : Nat) (op : Op) (place : Place)

structure World where
  now : Nat
  /-- The row as it is committed. -/
  row : Option Row
  /-- Who has the key's advisory lock. -/
  lock : Option Nat
  /-- The one who has the advisory lock has locked the row, too. -/
  rowLocked : Bool
  clients : Nat → Client
  /-- The number of the next operation. -/
  next : Nat
  history : List (Event Op Reply)

def rowOf (lib : Lib) (it : Item) : Row := ⟨lib.md5 it.value, it.value, it.expiresAt, none, 0⟩

def World.start (lib : Lib) (now : Nat) (key : Option Item) : World :=
  ⟨now, key.map (rowOf lib), none, false, fun _ => .idle, 0, []⟩

namespace World

def put (w : World) (i : Nat) (c : Client) : World :=
  { w with clients := Function.update w.clients i c }

/-- The transaction ends; locks go with it. -/
def release (w : World) : World := { w with lock := none, rowLocked := false }

/-- `publish_value` answers `precondition`: `Set` gives up, `mutate` goes round while it may. -/
def refused (op : Op) (attempt : Option Nat) : Place :=
  match attempt, op.mutation with
  | some a, some m =>
    if m.retries = 0 ∨ a + 1 < m.retries then .looking (a + 1) else .done (.error .contention)
  | _, _ => .done (.ok (.wrote false))

def advance (lib : Lib) (w : World) (i id : Nat) (op : Op) : Place → Option World
  | .called =>
    some <| w.put i <| .busy id op <|
      match op with
      | .set val opts => .ready (setWrite lib val opts)
      | .getDel => .begun .getDel w.now
      | .del => .begun .del w.now
      | op => if op.outOfRange then .done (.error .offset) else .looking 0
  | .looking a => some (w.put i (.busy id op (.reading a w.now)))
  | .reading a began => some (w.put i (.busy id op (.fetched a (w.row.filter (·.live began)))))
  | .fetched a row =>
    match op.mutation with
    | none => none
    | some m =>
      some <| w.put i <| .busy id op <|
        match m.judge lib (row.filter (·.live w.now)) with
        | .fail e => .done (.error e)
        | .refuse r => .done (.ok r)
        | .write args r => .ready ⟨args, r, some a⟩
  | .ready wr => some (w.put i (.busy id op (.begun (.publish wr) w.now)))
  | .begun tx began =>
    if w.lock = none then some ({ w with lock := some i }.put i (.busy id op (.locked tx began)))
      else none
  | .locked (.publish wr) began =>
    if wr.args.reads then
      match wr.args.check w.row began with
      | .ok => some ({ w with rowLocked := true }.put i (.busy id op (.checked wr began)))
      | _ => some (w.release.put i (.busy id op (refused op wr.attempt)))
    else some (w.put i (.busy id op (.checked wr began)))
  | .locked .getDel _ =>
    match w.row with
    | none => some (w.release.put i (.busy id op (.done (.ok (.value none)))))
    | some r => some ({ w with rowLocked := true }.put i (.busy id op (.deleted r)))
  | .locked .del began =>
    some ({ w with rowLocked := true }.put i
      (.busy id op (.drafted began none (.deleted (if liveOld w.row began then 1 else 0)))))
  | .checked wr began =>
    match wr.args.write w.row began with
    | none => none
    | some r =>
      some ({ w with rowLocked := true }.put i (.busy id op (.drafted began (some r) wr.reply)))
  | .deleted r =>
    some (w.put i
      (.busy id op (.drafted w.now none (.value (if r.live w.now then some r.body else none)))))
  | .drafted _ draft reply =>
    some ({ w.release with row := draft }.put i (.busy id op (.done (.ok reply))))
  | .done _ => none

end World

inductive Act where
  /-- An idle client calls an operation. -/
  | call (i : Nat) (op : Op)
  | step (i : Nat)
  /-- The operation returns. -/
  | answer (i : Nat)
  | sweep
  | tick (n : Nat)

namespace World

def next? (lib : Lib) (w : World) : Act → Option World
  | .call i op =>
    match w.clients i with
    | .idle =>
      some ({ w with next := w.next + 1, history := w.history ++ [Event.call w.next op w.now] }.put i
      (.busy w.next op .called))
    | .busy .. => none
  | .step i =>
    match w.clients i with
    | .idle => none
    | .busy id op place => w.advance lib i id op place
  | .answer i =>
    match w.clients i with
    | .busy id _ (.done result) =>
      some ({ w with history := w.history ++ [Event.answer id result.toOption w.now] }.put i .idle)
    | _ => none
  | .sweep => if !liveOld w.row w.now && !w.rowLocked then some { w with row := none } else none
  | .tick n => some { w with now := w.now + n }

end World

abbrev machine (lib : Lib) : Conc.Machine := ⟨World, Act, World.next? lib⟩

/-- Whenever an operation looks at the row, or replaces it, the row is live by its clock exactly
when it is live at that moment. -/
def fresh (w : World) : Act → Bool
  | .step i =>
    match w.clients i with
    | .busy _ _ (.reading _ began) => liveOld w.row began == liveOld w.row w.now
    | .busy _ _ (.fetched _ row) => liveOld row w.now == row.isSome
    | .busy _ _ (.locked (.publish _) began) => liveOld w.row began == liveOld w.row w.now
    | .busy _ _ (.drafted judged _ _) => liveOld w.row judged == liveOld w.row w.now
    | _ => true
  | _ => true

def itemOf (r : Row) : Item := ⟨r.body, r.expiresAt⟩

/-- What a row is to a client. -/
def visible (now : Nat) (row : Option Row) : Option Item := expire now (row.map itemOf)

/-- The answered operations have an order that real time allows and that the sequential key
explains, up to what the key holds now. -/
def Linearizable (key : Option Item) (w : World) : Prop :=
  ∃ points final, Conc.Linearizes spec key final w.history points ∧
    expire w.now final = visible w.now w.row

end Pgvs3.KeyOps
