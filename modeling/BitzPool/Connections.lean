import BitzPool.Claims

/-!
# Websocket connections

`ws_handler_v2`, `ws_handler_pubkey` and `ws_handler_pubkey_v3` check a request for a websocket, the last two signing
the miner up when the first lookup fails, and hand the upgraded socket to `handle_socket`, which enters a connection
under the client's address while its messages are received.  The three differ in how the client proves who it is, and
in the worker name of the connection: a dash, or whatever the query says.

Every database call and every lock section is a step of its own (`WsPc.step`).  `Connections` has any number of requests
at work on one database and one map of sockets.
-/

namespace BitzPool

/-! ### Requests -/

/-- The handler a request comes to, with what only that handler reads. -/
inductive WsRoute
  | v2 (signature : AuthSignature)
  | pubkey
  | pubkeyV3 (workerName : String)
  deriving DecidableEq

/-- A parsed request for a websocket. -/
structure WsRequest where
  addr : SocketAddr
  pubkey : Pubkey
  timestamp : UInt64
  route : WsRoute
  deriving DecidableEq

/-- What a client signs to log in on `ws_handler_v2`. -/
def loginMsg (timestamp : UInt64) : List UInt8 := toLeBytes timestamp

def WsRequest.workerName (r : WsRequest) : String :=
  match r.route with
  | .v2 _ | .pubkey => "-"
  | .pubkeyV3 workerName => workerName

/-- The connection of a request, with the identifier that `handle_socket` drew for it. -/
def WsRequest.connection (r : WsRequest) (minerId : MinerId) (uuid : Uuid) : AppClientConnection :=
  ⟨uuid, r.pubkey, minerId, r.workerName⟩

/-! ### The handlers and `handle_socket` -/

inductive WsPc
  | getMiner
  | signup
  | getSignedUp
  -- `handle_socket`
  | ping (minerId : MinerId)
  | insert (conn : AppClientConnection)
  | receiving (conn : AppClientConnection)
  | closed
  | answered (answer : Response)
  deriving DecidableEq

/-- A request arrives. -/
def WsRequest.arrive (now : ℕ) (r : WsRequest) : WsPc :=
  if 30 ≤ UInt64.ofNat now - r.timestamp then .answered ⟨401, "Timestamp too old."⟩ else .getMiner

/-- The checks on the miner's row. -/
def WsRequest.checkMiner (verify : Verify) (r : WsRequest) (miner : Miner) : WsPc :=
  if miner.enabled then
    match r.route with
    | .v2 signature =>
      if verify signature r.pubkey (loginMsg r.timestamp) then .ping miner.id
      else .answered ⟨401, "Sig verification failed"⟩
    | .pubkey | .pubkeyV3 _ => .ping miner.id
  else .answered ⟨401, "pubkey is not authorized to mine"⟩

/-- How `ws_handler_v2` answers an error of the lookup. -/
def wsLookupFailed : AppDatabaseError → Response
  | .queryFailed | .interactionFailed => ⟨401, "pubkey is not authorized to mine. please sign up."⟩
  | .failedToGetConnectionFromPool | .failedToUpdateRow | .failedToInsertRow => ⟨500, "Internal Server Error"⟩

inductive WsInput
  | call (o : CallOutcome)
  /-- a call of the sign-up transaction, with the `AUTO_INCREMENT` value it would use -/
  | signup (o : CallOutcome) (id : MinerId)
  /-- whether the socket answers, and the identifier drawn for it -/
  | ping (ok : Bool) (uuid : Uuid)
  | insert
  /-- the client's messages end -/
  | close
  deriving DecidableEq

/-- What the handlers change. -/
structure WsMemory where
  db : Database
  sockets : Sockets

def WsPc.step (verify : Verify) (r : WsRequest) (m : WsMemory) : WsInput → WsPc → Option (WsMemory × WsPc)
  | .call o, .getMiner =>
    match r.route, getMinerByPubkeyStr o r.pubkey m.db with
    | .v2 _, .ok miner => some (m, r.checkMiner verify miner)
    | .v2 _, .error e => some (m, .answered (wsLookupFailed e))
    | .pubkey, .ok _ | .pubkeyV3 _, .ok _ => some (m, .getSignedUp)
    | .pubkey, .error _ | .pubkeyV3 _, .error _ => some (m, .signup)
  | .signup o id, .signup =>
    match signupUserTransaction o id r.pubkey m.db with
    | (.ok _, db) => some ({ m with db := db }, .getSignedUp)
    | (.error _, db) => some ({ m with db := db }, .signup)
  | .call o, .getSignedUp =>
    match getMinerByPubkeyStr o r.pubkey m.db with
    | .ok miner => some (m, r.checkMiner verify miner)
    | .error _ => some (m, .answered ⟨500, "Internal Server Error"⟩)
  | .ping ok uuid, .ping minerId => some (m, if ok then .insert (r.connection minerId uuid) else .closed)
  | .insert, .insert conn =>
    if r.addr ∈ m.sockets then some (m, .closed)
    else some ({ m with sockets := m.sockets.insert r.addr conn }, .receiving conn)
  | .close, .receiving _ => some ({ m with sockets := m.sockets.erase r.addr }, .closed)
  | _, _ => none

/-- The connection that a request has built. -/
def WsPc.conn? : WsPc → Option AppClientConnection
  | .insert conn | .receiving conn => some conn
  | .getMiner | .signup | .getSignedUp | .ping _ | .closed | .answered _ => none

/-- The transitions of a request: `check` are those before the socket is upgraded, or where it is not. -/
inductive WsStep (r : WsRequest) (m : WsMemory) : WsInput → WsPc → WsMemory → WsPc → Prop
  | check {i : WsInput} {pc pc' : WsPc} {db : Database} :
      pc.conn? = none → pc'.conn? = none → WsStep r m i pc { m with db := db } pc'
  | ping {minerId : MinerId} {uuid : Uuid} :
      WsStep r m (.ping true uuid) (.ping minerId) m (.insert (r.connection minerId uuid))
  | taken {conn : AppClientConnection} : r.addr ∈ m.sockets → WsStep r m .insert (.insert conn) m .closed
  | enter {conn : AppClientConnection} :
      r.addr ∉ m.sockets →
      WsStep r m .insert (.insert conn) { m with sockets := m.sockets.insert r.addr conn } (.receiving conn)
  | close {conn : AppClientConnection} :
      WsStep r m .close (.receiving conn) { m with sockets := m.sockets.erase r.addr } .closed

theorem WsRequest.arrive_conn? (now : ℕ) (r : WsRequest) : (r.arrive now).conn? = none := by
  unfold WsRequest.arrive
  split <;> rfl

theorem WsRequest.checkMiner_conn? (verify : Verify) (r : WsRequest) (miner : Miner) :
    (r.checkMiner verify miner).conn? = none := by
  unfold WsRequest.checkMiner
  split
  · split
    · split <;> rfl
    · rfl
    · rfl
  · rfl

theorem WsPc.step_sound {verify : Verify} {r : WsRequest} {m m' : WsMemory} {i : WsInput} {pc pc' : WsPc}
    (h : pc.step verify r m i = some (m', pc')) : WsStep r m i pc m' pc' := by
  unfold WsPc.step at h
  split at h
  · split at h <;> cases h
    · exact .check rfl (r.checkMiner_conn? verify _)
    all_goals exact .check rfl rfl
  · split at h <;> cases h <;> exact .check rfl rfl
  · split at h <;> cases h
    · exact .check rfl (r.checkMiner_conn? verify _)
    · exact .check rfl rfl
  · next ok uuid minerId =>
    cases ok <;> cases h
    · exact .check rfl rfl
    · exact .ping
  · split at h
    · next hmem =>
      cases h
      exact .taken hmem
    · next hmem =>
      cases h
      exact .enter hmem
  · cases h
    exact .close
  · cases h

/-! ### The system -/

structure Connections where
  now : ℕ
  db : Database
  sockets : Sockets
  requests : List (WsRequest × WsPc)

namespace Connections

/-- `remove` is the removal of a connection by a task that found it dead, `database` a change by another task. -/
inductive Action
  | tick
  | request (r : WsRequest)
  | requestStep (k : ℕ) (input : WsInput)
  | remove (addr : SocketAddr)
  | database (db : Database)

def stepRequest (verify : Verify) (s : Connections) (k : ℕ) (input : WsInput) : Option Connections := do
  let t ← s.requests[k]?
  let (m, pc) ← t.2.step verify t.1 ⟨s.db, s.sockets⟩ input
  return { s with db := m.db, sockets := m.sockets, requests := s.requests.set k (t.1, pc) }

def step (verify : Verify) (s : Connections) : Action → Option Connections
  | .tick => some { s with now := s.now + 1 }
  | .request r => some { s with requests := s.requests ++ [(r, r.arrive s.now)] }
  | .requestStep k input => s.stepRequest verify k input
  | .remove addr => some { s with sockets := s.sockets.erase addr }
  | .database db => some { s with db := db }

/-- The server when it starts. -/
def start (db : Database) : Connections := ⟨0, db, ∅, []⟩

theorem stepRequest_sound {verify : Verify} {s s' : Connections} {k : ℕ} {input : WsInput}
    (h : s.stepRequest verify k input = some s') :
    ∃ r pc m pc', s.requests[k]? = some (r, pc) ∧ WsStep r ⟨s.db, s.sockets⟩ input pc m pc' ∧
      s' = { s with db := m.db, sockets := m.sockets, requests := s.requests.set k (r, pc') } := by
  simp only [stepRequest, Option.bind_eq_bind, Option.bind_eq_some_iff, Option.pure_def, Option.some.injEq] at h
  obtain ⟨⟨r, pc⟩, hk, ⟨m, pc'⟩, hstep, rfl⟩ := h
  exact ⟨r, pc, m, pc', hk, WsPc.step_sound hstep, rfl⟩

end Connections

end BitzPool
