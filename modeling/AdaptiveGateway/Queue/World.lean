/-
The stores behind the offline queue.

`World` is what the gateway processes share: the Redis stream with its consumer
group, the two companion hashes, the replay leases, the `failed_requests` table
and the clock.  `perform` is the effect of one command when the store executes
it, and `exec` adds the ways a command can go wrong for its caller: refused
before it took effect, or executed with the reply lost.

Stream ids are counted instead of being taken from the clock, since only their
order matters.  Numbers that the code writes as text and reads back as numbers
(attempts, due times, the entry's timestamp) are kept as numbers; all other
fields of an entry are stored as UTF-8 bytes.

`log` and `held` are history: no command reads them.  `log` lists what happened,
latest first, and `held` the leases between a successful acquisition and the end
of the release that follows it.
-/
import AdaptiveGateway.Codec.Json
import AdaptiveGateway.ProxyHttp

namespace AdaptiveGateway
namespace Queue

open Codec

abbrev EntryId := Nat

/-- A task of some gateway process: a sync worker or a request handler. -/
inductive Thread where
  | worker (n : Nat)
  | client (n : Nat)
deriving DecidableEq, Repr

/-- A lease token.  The code draws 128 random bits; here two draws differ because
their owner or their serial number does. -/
structure Token where
  owner : Thread
  serial : Nat
deriving DecidableEq, Repr

/-- The fields of a stream entry, with texts held as `τ`.  A timestamp that
`float` refuses is `some none`. -/
structure Fields (τ : Type) where
  method : Option τ
  url : Option τ
  path : Option τ
  headers : Option τ
  body : Option τ
  clientId : Option τ
  timestamp : Option (Option Time)
deriving DecidableEq, Repr

namespace Fields

/-- What the client library sends to Redis. -/
def encode (f : Fields Text) : Fields Bytes where
  method := f.method.map utf8
  url := f.url.map utf8
  path := f.path.map utf8
  headers := f.headers.map utf8
  body := f.body.map utf8
  clientId := f.clientId.map utf8
  timestamp := f.timestamp

def decodeText : Option Bytes → Option (Option Text)
  | none => some none
  | some b => (utf8Decode b).map some

/-- What the client library makes of a reply (`decode_responses=True`). -/
def decode (f : Fields Bytes) : Option (Fields Text) := do
  let method ← decodeText f.method
  let url ← decodeText f.url
  let path ← decodeText f.path
  let headers ← decodeText f.headers
  let body ← decodeText f.body
  let clientId ← decodeText f.clientId
  some ⟨method, url, path, headers, body, clientId, f.timestamp⟩

theorem decodeText_map_utf8 (t : Option Text) : decodeText (t.map utf8) = some t := by
  cases t with
  | none => rfl
  | some t => simp [decodeText, utf8Decode_utf8]

/-- The transport loses nothing. -/
theorem decode_encode (f : Fields Text) : f.encode.decode = some f := by
  simp [decode, encode, decodeText_map_utf8]

end Fields

/-- A row of `failed_requests`, without the columns the database fills in. -/
structure FailedRequest where
  method : Text
  path : Text
  headers : List (Text × Json)
  body : Option Text
  clientId : Option Text
  retries : Nat
  lastError : Option Text

def noNul (t : Text) : Bool := !t.contains '\x00'

mutual
/-- No string inside the value contains U+0000. -/
def jsonNoNul : Json → Bool
  | .null => true
  | .bool _ => true
  | .num lit => noNul lit
  | .str s => noNul s
  | .arr xs => elemsNoNul xs
  | .obj ms => membersNoNul ms

def elemsNoNul : List Json → Bool
  | [] => true
  | x :: xs => jsonNoNul x && elemsNoNul xs

def membersNoNul : List (Text × Json) → Bool
  | [] => true
  | m :: ms => noNul m.1 && jsonNoNul m.2 && membersNoNul ms
end

/-- What PostgreSQL accepts into `failed_requests`: the column lengths, and no
U+0000 in any text or JSON value. -/
def FailedRequest.accepted (r : FailedRequest) : Bool :=
  decide (r.method.length ≤ 8) && decide (r.path.length ≤ 2048) &&
    decide ((r.clientId.getD []).length ≤ 128) &&
    noNul r.method && noNul r.path && membersNoNul r.headers && noNul (r.body.getD []) &&
    noNul (r.clientId.getD []) && noNul (r.lastError.getD [])

/-! ## Redis -/

structure Pending where
  id : EntryId
  consumer : Thread
  delivered : Time
deriving DecidableEq, Repr

/-- The consumer group: the last id handed out and the pending entries, in id
order. -/
structure Group where
  lastDelivered : EntryId
  pel : List Pending
deriving DecidableEq, Repr

/-- `XACK`. -/
def Group.ack (m : EntryId) (g : Group) : Group where
  lastDelivered := g.lastDelivered
  pel := g.pel.filter fun p => p.id ≠ m

structure Lease where
  token : Token
  expires : Time
deriving DecidableEq, Repr

structure Held where
  thread : Thread
  id : EntryId
  token : Token
deriving DecidableEq, Repr

/-- What has happened to entry `m`. -/
inductive Event where
  | added (m : EntryId) (fields : Fields Bytes)
  /-- The attempts hash was written, under this lease if the thread had one. -/
  | wrote (m : EntryId) (t : Option Token)
  /-- An upstream request was issued, under this lease if the thread had one. -/
  | sent (m : EntryId) (t : Option Token) (req : HttpRequest (Dict Text Json))
  | answered (m : EntryId) (status : Nat)
  | xacked (m : EntryId)
  /-- `_ack` came to its end. -/
  | acked (m : EntryId)

structure World where
  now : Time := 0
  stream : List (EntryId × Fields Bytes) := []
  lastId : EntryId := 0
  group : Option Group := none
  attempts : EntryId → Option Nat := fun _ => none
  due : EntryId → Option Time := fun _ => none
  lock : EntryId → Option Lease := fun _ => none
  nextSerial : Nat := 0
  rows : List (EntryId × FailedRequest) := []
  /-- `self._claim_cursor` of each worker. -/
  cursor : Thread → EntryId := fun _ => 0
  log : List Event := []
  held : List Held := []

/-- The commands between which a task can be suspended.  The entry id in
`commit`, `send` and `recv` is history. -/
inductive Cmd where
  | time
  | tokenHex
  | cursor
  | setCursor (id : EntryId)
  | xgroupCreate
  | xadd (maxDepth : Nat) (entry : Fields Text)
  | xreadgroup (count : Nat)
  | xautoclaim (minIdle : Time) (start : EntryId) (count : Nat)
  | setNx (m : EntryId) (token : Token) (ttl : Nat)
  | getDel (m : EntryId) (token : Token)
  | hgetDue (m : EntryId)
  | hgetAttempts (m : EntryId)
  | hsetAttempts (m : EntryId) (n : Nat)
  | hsetDue (m : EntryId) (t : Time)
  | xack (m : EntryId)
  | xdel (m : EntryId)
  | hdelAttempts (m : EntryId)
  | hdelDue (m : EntryId)
  | commit (m : EntryId) (row : FailedRequest)
  | send (m : EntryId) (req : HttpRequest (Dict Text Json))
  | recv (m : EntryId)

/-- The answer to a command.  `xgroupCreate` answers `false` for `BUSYGROUP`, and
`xadd` nothing when the script found the stream full. -/
abbrev Ans : Cmd → Type
  | .time => Time
  | .tokenHex => Token
  | .cursor => EntryId
  | .xgroupCreate => Bool
  | .xadd _ _ => Option EntryId
  | .xreadgroup _ => List (EntryId × Fields Text)
  | .xautoclaim _ _ _ => EntryId × List (EntryId × Option (Fields Text))
  | .setNx _ _ _ => Bool
  | .hgetDue _ => Option Time
  | .hgetAttempts _ => Option Nat
  | .recv _ => UpstreamAnswer
  | _ => Unit

/-- The exceptions the caller of a command can see without the store having
answered so. -/
def Cmd.raises : Cmd → Exc → Bool
  | .time, _ | .tokenHex, _ | .cursor, _ | .setCursor _, _ => false
  | .commit _ _, e => e == .dbError || e == .cancelled
  | .send _ _, e | .recv _, e => e != .redisError && e != .dbError
  | _, e => e == .redisError || e == .cancelled

namespace World

def has (s : World) (m : EntryId) : Bool := s.stream.any fun e => e.1 == m

/-- The lease a thread works under. -/
def tokenOf (s : World) (i : Thread) (m : EntryId) : Option Token :=
  (s.held.find? fun h => h.thread = i ∧ h.id = m).map Held.token

def record (s : World) (e : Event) : World := { s with log := e :: s.log }

/-- The entries behind the last one handed out. -/
def undelivered (s : World) (g : Group) : List (EntryId × Fields Bytes) :=
  s.stream.filter fun e => decide (g.lastDelivered < e.1)

end World

/-- The reply of a read: the entries as the client library decodes them. -/
def decodeEntries : List (EntryId × Fields Bytes) → Option (List (EntryId × Fields Text))
  | [] => some []
  | e :: es =>
    match e.2.decode, decodeEntries es with
    | some f, some fs => some ((e.1, f) :: fs)
    | _, _ => none

structure Claim where
  claimed : List EntryId
  pel : List Pending
  next : EntryId

/-- The scan of `XAUTOCLAIM` over the pending entries from its start id on.  It
looks at no more than `looks` of them and stops when `count` are claimed or
dropped.  Entries that are gone from the stream leave the pending list. -/
def claimScan (has : EntryId → Bool) (now minIdle : Time) (consumer : Thread) :
    (looks count : Nat) → List Pending → Claim
  | _, _, [] => ⟨[], [], 0⟩
  | 0, _, p :: ps => ⟨[], p :: ps, p.id⟩
  | _, 0, p :: ps => ⟨[], p :: ps, p.id⟩
  | looks + 1, count + 1, p :: ps =>
    if has p.id then
      if now - p.delivered < minIdle then
        let r := claimScan has now minIdle consumer looks (count + 1) ps
        ⟨r.claimed, p :: r.pel, r.next⟩
      else
        let r := claimScan has now minIdle consumer looks count ps
        ⟨p.id :: r.claimed, ⟨p.id, consumer, now⟩ :: r.pel, r.next⟩
    else claimScan has now minIdle consumer looks count ps

namespace World

/-- The group after `XREADGROUP` has handed out up to `count` new entries. -/
def readGroup (s : World) (i : Thread) (g : Group) (count : Nat) : Group where
  lastDelivered := (((s.undelivered g).take count).getLast?.map Prod.fst).getD g.lastDelivered
  pel := g.pel ++ ((s.undelivered g).take count).map fun e => ⟨e.1, i, s.now⟩

def claim (s : World) (i : Thread) (g : Group) (minIdle : Time) (start : EntryId) (count : Nat) :
    Claim :=
  claimScan s.has s.now minIdle i (count * 10) count
    (g.pel.filter fun p => decide (start ≤ p.id))

/-- The group after `XAUTOCLAIM`. -/
def claimGroup (s : World) (i : Thread) (g : Group) (minIdle : Time) (start : EntryId)
    (count : Nat) : Group where
  lastDelivered := g.lastDelivered
  pel := (g.pel.filter fun p => decide (p.id < start)) ++ (s.claim i g minIdle start count).pel

end World

/-- The effect of a command that its store executes, with the store's own
answer.  An upstream answer has to be supplied from outside. -/
def perform (i : Thread) (a : Option UpstreamAnswer) (s : World) :
    (c : Cmd) → Option (Except Exc (Ans c) × World)
  | .time => some (.ok s.now, s)
  | .tokenHex => some (.ok ⟨i, s.nextSerial⟩, { s with nextSerial := s.nextSerial + 1 })
  | .cursor => some (.ok (s.cursor i), s)
  | .setCursor id => some (.ok (), { s with cursor := Function.update s.cursor i id })
  | .xgroupCreate =>
    match s.group with
    | none => some (.ok true, { s with group := some ⟨0, []⟩ })
    | some _ => some (.ok false, s)
  | .xadd maxDepth entry =>
    if s.stream.length ≥ maxDepth then some (.ok none, s)
    else
      let id := s.lastId + 1
      some (.ok (some id),
        { s with stream := s.stream ++ [(id, entry.encode)], lastId := id }.record
          (.added id entry.encode))
  | .xreadgroup count =>
    match s.group with
    | none => some (.error .redisError, s)
    | some g =>
      let s' := { s with group := some (s.readGroup i g count) }
      match decodeEntries ((s.undelivered g).take count) with
      | some entries => some (.ok entries, s')
      | none => some (.error .unicodeError, s')
  | .xautoclaim minIdle start count =>
    match s.group with
    | none => some (.error .redisError, s)
    | some g =>
      let r := s.claim i g minIdle start count
      let s' := { s with group := some (s.claimGroup i g minIdle start count) }
      match decodeEntries (s.stream.filter fun e => r.claimed.contains e.1) with
      | some entries => some (.ok (r.next, entries.map fun e => (e.1, some e.2)), s')
      | none => some (.error .unicodeError, s')
  | .setNx m token ttl =>
    match s.lock m with
    | some _ => some (.ok false, s)
    | none => some (.ok true,
        { s with lock := Function.update s.lock m (some ⟨token, s.now + seconds ttl⟩) })
  | .getDel m token =>
    match s.lock m with
    | some l =>
      if l.token = token then some (.ok (), { s with lock := Function.update s.lock m none })
      else some (.ok (), s)
    | none => some (.ok (), s)
  | .hgetDue m => some (.ok (s.due m), s)
  | .hgetAttempts m => some (.ok (s.attempts m), s)
  | .hsetAttempts m n =>
    some (.ok (), { s with attempts := Function.update s.attempts m (some n) }.record
      (.wrote m (s.tokenOf i m)))
  | .hsetDue m t => some (.ok (), { s with due := Function.update s.due m (some t) })
  | .xack m => some (.ok (), { s with group := s.group.map (Group.ack m) }.record (.xacked m))
  | .xdel m => some (.ok (), { s with stream := s.stream.filter fun e => e.1 ≠ m })
  | .hdelAttempts m => some (.ok (), { s with attempts := Function.update s.attempts m none })
  | .hdelDue m => some (.ok (), { s with due := Function.update s.due m none })
  | .commit m row =>
    if row.accepted then some (.ok (), { s with rows := (m, row) :: s.rows })
    else some (.error .dbError, s)
  | .send m req => some (.ok (), s.record (.sent m (s.tokenOf i m) req))
  | .recv m =>
    match a with
    | some a => some (.ok a, s.record (.answered m a.status))
    | none => none

/-- The history of a reply that reached its caller. -/
def noteReply (i : Thread) (s : World) : (c : Cmd) → Except Exc (Ans c) → World
  | .setNx m token _, .ok true => { s with held := ⟨i, m, token⟩ :: s.held }
  | .getDel m token, _ => { s with held := s.held.filter fun h => h ≠ ⟨i, m, token⟩ }
  | .hdelDue m, .ok _ => s.record (.acked m)
  | _, _ => s

/-- One command of thread `i`. -/
def exec (i : Thread) (c : Cmd) (ch : Choice) (s : World) : Option (Except Exc (Ans c) × World) :=
  match ch with
  | .ok => (perform i none s c).map fun o => (o.1, noteReply i o.2 c o.1)
  | .answer a => (perform i (some a) s c).map fun o => (o.1, noteReply i o.2 c o.1)
  | .refuse e => if c.raises e then some (.error e, noteReply i s c (.error e)) else none
  | .lost e =>
    if c.raises e then (perform i none s c).map fun o => (.error e, noteReply i o.2 c (.error e))
    else none

/-- Time passes, and the leases that run out are gone. -/
def advance (d : Time) (s : World) : World :=
  { s with
    now := s.now + d
    lock := fun m => (s.lock m).filter fun l => decide (s.now + d < l.expires) }

/-- What a crash leaves: the thread no longer holds anything, while its leases
stay in Redis until they expire. -/
def dropThread (i : Thread) (s : World) : World :=
  { s with held := s.held.filter fun h => h.thread ≠ i }

end Queue
end AdaptiveGateway
