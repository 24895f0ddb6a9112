import BitzPool.Assignment
import BitzPool.Connections
import BitzPool.Lib.Update

/-!
# The server's connections and the tasks that watch them

`handle_socket` passes what a client sends to `client_message_handler_system` through a channel (`processMessage`).
`ping_check_system` pings the connections of a copy of the map, each in a task of its own, and removes those that did not
answer; `pong_tracking_system` goes through a copy of the recorded pongs and removes the connections whose pong is old.
Both, and `handle_socket` at the end of a connection, remove by address.

`Serving` has these tasks beside those that assign work and mine; connections, clients that are ready and solutions, which
come from anywhere in `Assigning`, come from the requests and the channel here (`assigning_run`).
-/

namespace BitzPool

open Transition Update

/-! ### Messages -/

/-- What comes over a websocket. -/
inductive WsMessage
  | text
  | binary (d : List UInt8)
  | close
  | ping
  | pong
  deriving DecidableEq

/-- The uuid of a pong is that of the connection it came over; nothing reads it. -/
inductive ClientMessage
  | ready (addr : SocketAddr)
  | mining (addr : SocketAddr)
  | bestSolution (msg : BestSolution)
  | pong (addr : SocketAddr) (author : Uuid)
  deriving DecidableEq

/-- The `n` bytes from place `i` on. -/
def bytesFrom (d : List UInt8) (n i : ℕ) : List.Vector UInt8 n := List.Vector.ofFn fun k => d.getD (i + k) 0

/-- What is put into the channel for a message; none at all when the connection is closed by it, or the task panics at an
index out of bounds. -/
def processMessage (socketUuid : Uuid) (who : SocketAddr) : WsMessage → Option (Option ClientMessage)
  | .text | .ping => some none
  | .close => none
  | .pong => some (some (.pong who socketUuid))
  | .binary [] => none
  | .binary (messageType :: d) =>
    if messageType = 0 then some (some (.ready who))
    else if messageType = 1 then some (some (.mining who))
    else if messageType = 2 then
      -- digest, nonce and a key that nothing looks at
      if 16 + 8 + 32 ≤ d.length then
        some (some (.bestSolution ⟨who, ⟨bytesFrom d 16 0, bytesFrom d 8 16⟩, socketUuid⟩))
      else none
    else some none

/-- A message of the channel carries the address of its connection, and a solution and a pong its identifier. -/
theorem processMessage_sound {socketUuid : Uuid} {who : SocketAddr} {m : WsMessage} {msg : ClientMessage}
    (h : processMessage socketUuid who m = some (some msg)) :
    m = .pong ∧ msg = .pong who socketUuid ∨ msg = .ready who ∨ msg = .mining who ∨
      ∃ solution, msg = .bestSolution ⟨who, solution, socketUuid⟩ := by
  unfold processMessage at h
  split at h
  · cases h
  · cases h
  · cases h
  · cases h
    exact Or.inl ⟨rfl, rfl⟩
  · cases h
  · split at h
    · cases h
      exact Or.inr (Or.inl rfl)
    · split at h
      · cases h
        exact Or.inr (Or.inr (Or.inl rfl))
      · split at h
        · split at h <;> cases h
          exact Or.inr (Or.inr (Or.inr ⟨_, rfl⟩))
        · cases h

/-! ### `ping_check_system` -/

/-- A spawned ping, with its result when there is one. -/
structure PingHandle where
  who : SocketAddr
  socket : AppClientConnection
  ok : Option Bool
  deriving DecidableEq

inductive PingPc
  | top
  | wait (handles : List PingHandle)
  | remove (who : SocketAddr) (socket : AppClientConnection) (handles : List PingHandle)
  deriving DecidableEq

inductive PingInput
  /-- the copy of the map, in the order of its iteration -/
  | clone (socks : List (SocketAddr × AppClientConnection))
  | answer (i : ℕ) (ok : Bool)
  | go
  deriving DecidableEq

def PingPc.handles : PingPc → List PingHandle
  | .wait handles | .remove _ _ handles => handles
  | .top => []

/-- The ping `i` has a result. -/
def answerPing (handles : List PingHandle) (i : ℕ) (ok : Bool) : Option (List PingHandle) :=
  match handles[i]? with
  | some ⟨who, socket, none⟩ => some (handles.set i ⟨who, socket, some ok⟩)
  | _ => none

def PingPc.step (sockets : Sockets) : PingInput → PingPc → Option (Sockets × PingPc)
  | .clone socks, .top =>
    if socks.Perm (sockets.entries.map fun e => (e.1, e.2)) then
      some (sockets, .wait (socks.map fun e => ⟨e.1, e.2, none⟩))
    else none
  | .answer i ok, .wait handles => (answerPing handles i ok).map fun handles => (sockets, .wait handles)
  | .answer i ok, .remove who socket handles =>
    (answerPing handles i ok).map fun handles => (sockets, .remove who socket handles)
  | .go, .wait [] => some (sockets, .top)
  | .go, .wait (⟨_, _, none⟩ :: _) => none
  | .go, .wait (⟨_, _, some true⟩ :: handles) => some (sockets, .wait handles)
  | .go, .wait (⟨who, socket, some false⟩ :: handles) => some (sockets, .remove who socket handles)
  | .go, .remove who _ handles => some (sockets.erase who, .wait handles)
  | _, _ => none

/-- The ping of the connection has failed, and the task has yet to remove it. -/
def PingPc.Failed (pc : PingPc) (socket : AppClientConnection) : Prop :=
  (∃ h ∈ pc.handles, h.ok = some false ∧ h.socket = socket) ∨ ∃ who handles, pc = .remove who socket handles

inductive PingStep (sockets : Sockets) (pc : PingPc) : PingInput → Sockets → PingPc → Prop
  | move {i : PingInput} {pc' : PingPc} :
      (∀ socket, pc'.Failed socket → pc.Failed socket) → PingStep sockets pc i sockets pc'
  | answer {i : ℕ} {ok : Bool} {h : PingHandle} {pc' : PingPc} :
      pc.handles[i]? = some h → (∀ socket, pc'.Failed socket → pc.Failed socket ∨ ok = false ∧ h.socket = socket) →
      PingStep sockets pc (.answer i ok) sockets pc'
  | remove {who : SocketAddr} {socket : AppClientConnection} {handles : List PingHandle} :
      pc = .remove who socket handles → PingStep sockets pc .go (sockets.erase who) (.wait handles)

private theorem answerPing_sound {handles handles' : List PingHandle} {i : ℕ} {ok : Bool}
    (h : answerPing handles i ok = some handles') :
    ∃ handle, handles[i]? = some handle ∧
      ∀ h ∈ handles', h.ok = some false → h ∈ handles ∨ ok = false ∧ handle.socket = h.socket := by
  unfold answerPing at h
  split at h
  · next who socket hi =>
    cases h
    refine ⟨_, hi, fun h hh hfalse => ?_⟩
    rcases List.mem_or_eq_of_mem_set hh with hh | rfl
    · exact Or.inl hh
    · exact Or.inr ⟨Option.some.inj hfalse, rfl⟩
  · cases h

private theorem PingStep.of_answer {sockets : Sockets} {pc pc' : PingPc} {i : ℕ} {ok : Bool}
    (h : answerPing pc.handles i ok = some pc'.handles)
    (hremove : ∀ socket, (∃ who handles, pc' = .remove who socket handles) →
      ∃ who handles, pc = .remove who socket handles) : PingStep sockets pc (.answer i ok) sockets pc' := by
  obtain ⟨handle, hi, hnew⟩ := answerPing_sound h
  refine .answer hi fun socket hfailed => ?_
  rcases hfailed with ⟨h, hh, hok, rfl⟩ | hpc'
  · exact (hnew h hh hok).imp_left fun hh => Or.inl ⟨h, hh, hok, rfl⟩
  · exact Or.inl (Or.inr (hremove socket hpc'))

theorem PingPc.step_sound {sockets sockets' : Sockets} {i : PingInput} {pc pc' : PingPc}
    (h : pc.step sockets i = some (sockets', pc')) : PingStep sockets pc i sockets' pc' := by
  unfold PingPc.step at h
  split at h
  · split at h <;> cases h
    refine .move fun socket hfailed => ?_
    rcases hfailed with ⟨h, hh, hok, -⟩ | ⟨who, handles, he⟩
    · obtain ⟨e, -, rfl⟩ := List.mem_map.1 hh
      cases hok
    · cases he
  · obtain ⟨handles', hanswer, he⟩ := Option.map_eq_some_iff.1 h
    cases he
    exact .of_answer hanswer (by rintro _ ⟨_, _, he⟩; cases he)
  · obtain ⟨handles', hanswer, he⟩ := Option.map_eq_some_iff.1 h
    cases he
    exact .of_answer hanswer (by rintro _ ⟨_, _, he⟩; cases he; exact ⟨_, _, rfl⟩)
  · cases h
    refine .move fun socket hfailed => ?_
    rcases hfailed with ⟨h, hh, -⟩ | ⟨who, handles, he⟩
    · cases hh
    · cases he
  · cases h
  · cases h
    refine .move fun socket hfailed => ?_
    rcases hfailed with ⟨h, hh, hfalse⟩ | ⟨who, handles, he⟩
    · exact Or.inl ⟨h, List.mem_cons_of_mem _ hh, hfalse⟩
    · cases he
  · cases h
    refine .move fun socket hfailed => ?_
    rcases hfailed with ⟨h, hh, hfalse⟩ | ⟨who, handles, he⟩
    · exact Or.inl ⟨h, List.mem_cons_of_mem _ hh, hfalse⟩
    · cases he
      exact Or.inl ⟨_, List.mem_cons_self, rfl, rfl⟩
  · cases h
    exact .remove rfl
  · cases h

/-! ### `pong_tracking_system` -/

/-- When the last pong from an address was taken from the channel, and which connection it came over; nothing reads the
latter. -/
structure LastPong where
  instant : ℕ
  author : Uuid
  deriving DecidableEq

/-- `elapsed().as_secs()`; instants are in nanoseconds. -/
def elapsedSecs (now instant : ℕ) : ℕ := (now - instant) / 1000000000

inductive SweepPc
  | top
  | scan (pongs : List (SocketAddr × LastPong))
  | removeSocket (addr : SocketAddr) (pong : LastPong) (pongs : List (SocketAddr × LastPong))
  | removePong (addr : SocketAddr) (pongs : List (SocketAddr × LastPong))
  deriving DecidableEq

inductive SweepInput
  /-- the copy of the pongs, in the order of its iteration -/
  | clone (pongs : List (SocketAddr × LastPong))
  | go
  deriving DecidableEq

/-- What the sweep changes. -/
structure SweepMemory where
  sockets : Sockets
  pongs : HashMap SocketAddr LastPong

def SweepPc.step (now : ℕ) (m : SweepMemory) : SweepInput → SweepPc → Option (SweepMemory × SweepPc)
  | .clone pongs, .top =>
    if pongs.Perm (m.pongs.entries.map fun e => (e.1, e.2)) then some (m, .scan pongs) else none
  | .go, .scan [] => some (m, .top)
  | .go, .scan ((addr, pong) :: pongs) =>
    some (m, if 90 < elapsedSecs now pong.instant then .removeSocket addr pong pongs else .scan pongs)
  | .go, .removeSocket addr _ pongs => some ({ m with sockets := m.sockets.erase addr }, .removePong addr pongs)
  | .go, .removePong addr pongs => some ({ m with pongs := m.pongs.erase addr }, .scan pongs)
  | _, _ => none

inductive SweepStep (now : ℕ) (m : SweepMemory) (pc : SweepPc) : SweepInput → SweepMemory → SweepPc → Prop
  | move {i : SweepInput} {pc' : SweepPc} :
      (∀ addr pong pongs, pc' ≠ .removeSocket addr pong pongs) → SweepStep now m pc i m pc'
  | old {addr : SocketAddr} {pong : LastPong} {pongs : List (SocketAddr × LastPong)} :
      90 < elapsedSecs now pong.instant → SweepStep now m pc .go m (.removeSocket addr pong pongs)
  | removeSocket {addr : SocketAddr} {pong : LastPong} {pongs : List (SocketAddr × LastPong)} :
      pc = .removeSocket addr pong pongs →
      SweepStep now m pc .go { m with sockets := m.sockets.erase addr } (.removePong addr pongs)
  | removePong {addr : SocketAddr} {pongs : List (SocketAddr × LastPong)} :
      pc = .removePong addr pongs → SweepStep now m pc .go { m with pongs := m.pongs.erase addr } (.scan pongs)

theorem SweepPc.step_sound {now : ℕ} {m m' : SweepMemory} {i : SweepInput} {pc pc' : SweepPc}
    (h : pc.step now m i = some (m', pc')) : SweepStep now m pc i m' pc' := by
  unfold SweepPc.step at h
  split at h
  · split at h <;> cases h
    exact .move (by simp)
  · cases h
    exact .move (by simp)
  · cases h
    split
    · next hold => exact .old hold
    · exact .move (by simp)
  · cases h
    exact .removeSocket rfl
  · cases h
    exact .removePong rfl
  · cases h

/-! ### The system -/

structure ServerSetup where
  mining : MiningSetup
  verify : Verify

/-- `readying` are the clients whose tasks have yet to put them into the set of those that are ready. -/
structure Serving where
  assigning : Assigning
  instant : ℕ
  requests : List (WsRequest × WsPc)
  channel : List ClientMessage
  readying : List SocketAddr
  pongs : HashMap SocketAddr LastPong
  ping : PingPc
  sweep : SweepPc

namespace Serving

inductive Action
  | assigning (a : Assigning.Action)
  | elapse (d : ℕ)
  | request (r : WsRequest)
  | requestStep (k : ℕ) (input : WsInput)
  /-- a message of the client of the request `k` -/
  | receive (k : ℕ) (msg : WsMessage)
  /-- the message handler takes a message from the channel -/
  | deliver
  | ping (input : PingInput)
  | sweep (input : SweepInput)

/-- The memory that the tasks share. -/
def mem (s : Serving) : EpochMemory := s.assigning.mining.mem

def setSockets (s : Serving) (sockets : Sockets) : Serving := { s with assigning.mining.mem.sockets := sockets }

def setDb (s : Serving) (db : Database) : Serving := { s with assigning.mining.mem.db := db }

def stepAssigning (su : ServerSetup) (s : Serving) : Assigning.Action → Option Serving
  | .mining (.connections _) | .mining (.message _) => none
  | .ready addr =>
    if addr ∈ s.readying then
      (s.assigning.step su.mining (.ready addr)).map fun t =>
        { s with assigning := t, readying := s.readying.erase addr }
    else none
  | a => (s.assigning.step su.mining a).map fun t => { s with assigning := t }

def stepRequest (su : ServerSetup) (s : Serving) (k : ℕ) (input : WsInput) : Option Serving := do
  let t ← s.requests[k]?
  let (m, pc) ← t.2.step su.verify t.1 ⟨s.mem.db, s.mem.sockets⟩ input
  return { (s.setDb m.db).setSockets m.sockets with requests := s.requests.set k (t.1, pc) }

def stepReceive (s : Serving) (k : ℕ) (msg : WsMessage) : Option Serving :=
  match s.requests[k]? with
  | some (r, .receiving conn) =>
    (processMessage conn.uuid r.addr msg).map fun out => { s with channel := s.channel ++ out.toList }
  | _ => none

def stepDeliver (su : ServerSetup) (s : Serving) : Option Serving :=
  match s.channel with
  | [] => none
  | .ready addr :: channel => some { s with channel := channel, readying := s.readying ++ [addr] }
  | .mining _ :: channel => some { s with channel := channel }
  | .bestSolution msg :: channel =>
    (s.assigning.step su.mining (.mining (.message msg))).map fun t => { s with assigning := t, channel := channel }
  | .pong addr author :: channel =>
    some { s with channel := channel, pongs := s.pongs.insert addr ⟨s.instant, author⟩ }

def step (su : ServerSetup) (s : Serving) : Action → Option Serving
  | .assigning a => s.stepAssigning su a
  | .elapse d => some { s with instant := s.instant + d }
  | .request r => some { s with requests := s.requests ++ [(r, r.arrive s.assigning.mining.now.toNat)] }
  | .requestStep k input => s.stepRequest su k input
  | .receive k msg => s.stepReceive k msg
  | .deliver => s.stepDeliver su
  | .ping input => (s.ping.step s.mem.sockets input).map fun (sockets, pc) => { s.setSockets sockets with ping := pc }
  | .sweep input => (s.sweep.step s.instant ⟨s.mem.sockets, s.pongs⟩ input).map fun (m, pc) =>
    { s.setSockets m.sockets with pongs := m.pongs, sweep := pc }

/-- The server when it starts with a proof of its account. -/
def start (proof : Proof) (db : Database) : Serving where
  assigning := Assigning.start proof db
  instant := 0
  requests := []
  channel := []
  readying := []
  pongs := ∅
  ping := .top
  sweep := .top

/-! ### Steps -/

variable {su : ServerSetup} {s s' : Serving} {a : Action}

inductive Step (su : ServerSetup) (s : Serving) : Action → Serving → Prop
  | assigning {a : Assigning.Action} {t : Assigning} {readying : List SocketAddr} :
      (∀ sockets, a ≠ .mining (.connections sockets)) → (∀ msg, a ≠ .mining (.message msg)) →
      s.assigning.step su.mining a = some t →
      Step su s (.assigning a) { s with assigning := t, readying := readying }
  | elapse {d : ℕ} : Step su s (.elapse d) { s with instant := s.instant + d }
  | request {r : WsRequest} {pc : WsPc} :
      pc.conn? = none → Step su s (.request r) { s with requests := s.requests ++ [(r, pc)] }
  | requestStep {k : ℕ} {input : WsInput} {r : WsRequest} {pc pc' : WsPc} {m : WsMemory} :
      s.requests[k]? = some (r, pc) → WsStep r ⟨s.mem.db, s.mem.sockets⟩ input pc m pc' →
      Step su s (.requestStep k input) { (s.setDb m.db).setSockets m.sockets with requests := s.requests.set k (r, pc') }
  | receive {k : ℕ} {msg : WsMessage} {r : WsRequest} {conn : AppClientConnection} {out : Option ClientMessage} :
      s.requests[k]? = some (r, .receiving conn) → processMessage conn.uuid r.addr msg = some out →
      Step su s (.receive k msg) { s with channel := s.channel ++ out.toList }
  | deliver {msg : ClientMessage} {channel : List ClientMessage} {readying : List SocketAddr} :
      s.channel = msg :: channel → (∀ best, msg ≠ .bestSolution best) → (∀ addr author, msg ≠ .pong addr author) →
      Step su s .deliver { s with channel := channel, readying := readying }
  | solution {msg : BestSolution} {channel : List ClientMessage} {t : Assigning} :
      s.channel = .bestSolution msg :: channel → s.assigning.step su.mining (.mining (.message msg)) = some t →
      Step su s .deliver { s with assigning := t, channel := channel }
  | pong {addr : SocketAddr} {author : Uuid} {channel : List ClientMessage} :
      s.channel = .pong addr author :: channel →
      Step su s .deliver { s with channel := channel, pongs := s.pongs.insert addr ⟨s.instant, author⟩ }
  | ping {input : PingInput} {sockets : Sockets} {pc : PingPc} :
      PingStep s.mem.sockets s.ping input sockets pc →
      Step su s (.ping input) { s.setSockets sockets with ping := pc }
  | sweep {input : SweepInput} {m : SweepMemory} {pc : SweepPc} :
      SweepStep s.instant ⟨s.mem.sockets, s.pongs⟩ s.sweep input m pc →
      Step su s (.sweep input) { s.setSockets m.sockets with pongs := m.pongs, sweep := pc }

theorem step_sound (h : step su s a = some s') : Step su s a s' := by
  cases a with
  | assigning a =>
    have h : s.stepAssigning su a = some s' := h
    unfold stepAssigning at h
    split at h
    · cases h
    · cases h
    · split at h
      · obtain ⟨t, ht, rfl⟩ := Option.map_eq_some_iff.1 h
        exact .assigning (by simp) (by simp) ht
      · cases h
    · next hconnections hmessage _ =>
      obtain ⟨t, ht, rfl⟩ := Option.map_eq_some_iff.1 h
      exact .assigning hconnections hmessage ht
  | elapse d =>
    cases h
    exact .elapse
  | request r =>
    cases h
    exact .request (r.arrive_conn? _)
  | requestStep k input =>
    have h : s.stepRequest su k input = some s' := h
    simp only [stepRequest, Option.bind_eq_bind, Option.bind_eq_some_iff, Option.pure_def, Option.some.injEq] at h
    obtain ⟨⟨r, pc⟩, hk, ⟨m, pc'⟩, hstep, rfl⟩ := h
    exact .requestStep hk (WsPc.step_sound hstep)
  | receive k msg =>
    have h : s.stepReceive k msg = some s' := h
    unfold stepReceive at h
    split at h
    · next r conn hk =>
      obtain ⟨out, hout, rfl⟩ := Option.map_eq_some_iff.1 h
      exact .receive hk hout
    · cases h
  | deliver =>
    have h : s.stepDeliver su = some s' := h
    unfold stepDeliver at h
    split at h
    · cases h
    · next hchannel =>
      cases h
      exact .deliver hchannel (by simp) (by simp)
    · next hchannel =>
      cases h
      exact @Step.deliver _ _ _ _ s.readying hchannel (by simp) (by simp)
    · next hchannel =>
      obtain ⟨t, ht, rfl⟩ := Option.map_eq_some_iff.1 h
      exact .solution hchannel ht
    · next hchannel =>
      cases h
      exact .pong hchannel
  | ping input =>
    obtain ⟨⟨sockets, pc⟩, hstep, rfl⟩ := Option.map_eq_some_iff.1 h
    exact .ping (PingPc.step_sound hstep)
  | sweep input =>
    obtain ⟨⟨m, pc⟩, hstep, rfl⟩ := Option.map_eq_some_iff.1 h
    exact .sweep (SweepPc.step_sound hstep)

/-- Connections, clients that are ready and solutions come from anywhere in `Assigning`. -/
theorem Step.assigning_step (h : Step su s a s') :
    s'.assigning = s.assigning ∨ ∃ b, Assigning.step su.mining s.assigning b = some s'.assigning := by
  cases h with
  | assigning _ _ ht => exact Or.inr ⟨_, ht⟩
  | requestStep _ hstep =>
    cases hstep with
    | @check _ _ _ db => exact Or.inr ⟨.mining (.database db), rfl⟩
    | ping | taken => exact Or.inl rfl
    | enter | close => exact Or.inr ⟨.mining (.connections _), rfl⟩
  | solution _ ht => exact Or.inr ⟨_, ht⟩
  | ping | sweep => exact Or.inr ⟨.mining (.connections _), rfl⟩
  | _ => exact Or.inl rfl

/-- A run of the server is one of `Assigning`, so that all that holds of those holds here. -/
theorem assigning_run {as : List Action} (h : run (step su) s as = some s') :
    ∃ bs, run (Assigning.step su.mining) s.assigning bs = some s'.assigning :=
  run_simulates Serving.assigning (fun h => (step_sound h).assigning_step) h

/-! ### The lives of connections -/

/-- What became of the connections: those that were authenticated, with their addresses, the pongs that came over each
and when, those that ended, and those whose ping failed. -/
structure Lives where
  authenticated : List (SocketAddr × AppClientConnection)
  pongs : List (Uuid × ℕ)
  ended : List Uuid
  failed : List Uuid
  deriving DecidableEq

/-- The connection that an action authenticates: its socket has answered the first ping. -/
def authenticates? (s : Serving) : Action → Option (SocketAddr × AppClientConnection)
  | .requestStep k (.ping true uuid) =>
    match s.requests[k]? with
    | some (r, .ping minerId) => some (r.addr, r.connection minerId uuid)
    | _ => none
  | _ => none

/-- The pong that comes over a connection. -/
def ponged? (s : Serving) : Action → Option (Uuid × ℕ)
  | .receive k .pong =>
    match s.requests[k]? with
    | some (_, .receiving conn) => some (conn.uuid, s.instant)
    | _ => none
  | _ => none

/-- The connection that ends. -/
def ended? (s : Serving) : Action → Option Uuid
  | .requestStep k .close =>
    match s.requests[k]? with
    | some (_, .receiving conn) => some conn.uuid
    | _ => none
  | _ => none

/-- The connection whose ping fails. -/
def failed? (s : Serving) : Action → Option Uuid
  | .ping (.answer i false) => s.ping.handles[i]?.map fun handle => handle.socket.uuid
  | _ => none

/-- What is noted of an action. -/
def watchLives (s : Serving) (a : Action) (w : Lives) : Lives where
  authenticated := w.authenticated ++ (s.authenticates? a).toList
  pongs := w.pongs ++ (s.ponged? a).toList
  ended := w.ended ++ (s.ended? a).toList
  failed := w.failed ++ (s.failed? a).toList

/-- `Uuid::new_v4` draws an identifier that no connection has had. -/
def FreshUuids (x : Serving × Lives) (a : Action) : Prop :=
  ∀ e' ∈ x.1.authenticates? a, ∀ e ∈ x.2.authenticated, e.2.uuid ≠ e'.2.uuid

instance (x : Serving × Lives) (a : Action) : Decidable (FreshUuids x a) :=
  inferInstanceAs (Decidable (∀ e' ∈ x.1.authenticates? a, ∀ e ∈ x.2.authenticated, e.2.uuid ≠ e'.2.uuid))

/-- An identifier belongs to one connection, and those of the requests and of the map are authenticated. -/
structure Known (x : Serving × Lives) : Prop where
  unique : ∀ e ∈ x.2.authenticated, ∀ e' ∈ x.2.authenticated, e.2.uuid = e'.2.uuid → e = e'
  requests : ∀ t ∈ x.1.requests, ∀ conn ∈ t.2.conn?, (t.1.addr, conn) ∈ x.2.authenticated
  sockets : ∀ {addr : SocketAddr} {conn : AppClientConnection}, x.1.mem.sockets.lookup addr = some conn →
    (addr, conn) ∈ x.2.authenticated

variable {w : Lives}

theorem mem_watchLives {e : SocketAddr × AppClientConnection} (h : e ∈ w.authenticated) :
    e ∈ (s.watchLives a w).authenticated :=
  List.mem_append_left _ h

private theorem unique_step (hs : Known (s, w)) (hfresh : FreshUuids (s, w) a) :
    ∀ e ∈ (s.watchLives a w).authenticated, ∀ e' ∈ (s.watchLives a w).authenticated, e.2.uuid = e'.2.uuid → e = e' := by
  intro e h e' h' hu
  rcases List.mem_append.1 h with h | h <;> rcases List.mem_append.1 h' with h' | h'
  · exact hs.unique e h e' h' hu
  · exact absurd hu (hfresh e' (Option.mem_toList.1 h') e h)
  · exact absurd hu.symm (hfresh e (Option.mem_toList.1 h) e' h')
  · exact Option.mem_unique (Option.mem_toList.1 h) (Option.mem_toList.1 h')

/-- The connections in the map after a step were there before it, or have just been entered. -/
theorem Step.sockets (h : Step su s a s') {addr : SocketAddr} {conn : AppClientConnection}
    (hconn : s'.mem.sockets.lookup addr = some conn) :
    s.mem.sockets.lookup addr = some conn ∨ ∃ t ∈ s.requests, t.1.addr = addr ∧ t.2.conn? = some conn := by
  cases h with
  | @assigning b t readying hb _ ht =>
    have hsame : t.mining.mem.sockets = s.mem.sockets := (Assigning.step_sound ht).sockets hb
    have hconn : t.mining.mem.sockets.lookup addr = some conn := hconn
    rw [hsame] at hconn
    exact Or.inl hconn
  | @solution msg channel t _ ht =>
    have hsame : t.mining.mem.sockets = s.mem.sockets := (Assigning.step_sound ht).sockets (by simp)
    have hconn : t.mining.mem.sockets.lookup addr = some conn := hconn
    rw [hsame] at hconn
    exact Or.inl hconn
  | requestStep hk hstep =>
    cases hstep with
    | enter =>
      rcases lookup_insert_cases hconn with ⟨rfl, rfl⟩ | ⟨-, hconn⟩
      · exact Or.inr ⟨_, List.mem_of_getElem? hk, rfl, rfl⟩
      · exact Or.inl hconn
    | close => exact Or.inl (lookup_erase_cases hconn).2
    | _ => exact Or.inl hconn
  | ping hstep =>
    cases hstep with
    | remove => exact Or.inl (lookup_erase_cases hconn).2
    | _ => exact Or.inl hconn
  | sweep hstep =>
    cases hstep with
    | removeSocket => exact Or.inl (lookup_erase_cases hconn).2
    | _ => exact Or.inl hconn
  | _ => exact Or.inl hconn

theorem Known.step (hs : Known (s, w)) (hfresh : FreshUuids (s, w) a) (h : Step su s a s') :
    Known (s', s.watchLives a w) := by
  refine ⟨unique_step hs hfresh, ?_, fun hconn => ?_⟩
  · have hold : ∀ t ∈ s.requests, ∀ conn ∈ t.2.conn?, (t.1.addr, conn) ∈ (s.watchLives a w).authenticated :=
      fun t ht conn hconn => mem_watchLives (hs.requests t ht conn hconn)
    cases h with
    | request hpc =>
      intro t ht conn hconn
      rcases List.mem_append.1 ht with ht | ht
      · exact hold t ht conn hconn
      · rw [List.mem_singleton.1 ht] at hconn
        rw [show _ = none from hpc] at hconn
        cases hconn
    | @requestStep k input r pc pc' m hk hstep =>
      intro t ht conn hconn
      rcases List.mem_or_eq_of_mem_set ht with ht | rfl
      · exact hold t ht conn hconn
      · cases hstep with
        | check _ hpc' =>
          rw [show _ = none from hpc'] at hconn
          cases hconn
        | ping =>
          cases hconn
          simp [watchLives, authenticates?, hk]
        | enter => exact hold _ (List.mem_of_getElem? hk) conn hconn
        | taken | close => cases hconn
    | _ => exact hold
  · rcases h.sockets hconn with hold | ⟨t, ht, rfl, hpc⟩
    · exact mem_watchLives (hs.sockets hold)
    · exact mem_watchLives (hs.requests t ht _ hpc)

theorem start_known (proof : Proof) (db : Database) : Known (start proof db, ⟨[], [], [], []⟩) where
  unique := fun e h => (by cases h)
  requests := fun t h => (by cases h)
  sockets := fun h => (by cases h)

/-! ### Data for examples -/

def exampleServer : Serving × Lives := (start Assigning.exampleProof (Database.single (filled 7) 0), ⟨[], [], [], []⟩)

def exampleServerSetup : ServerSetup := ⟨exampleMiningSetup, fun _ _ _ => true⟩

/-- The request `k`, of miner 1, and its steps up to the connection `uuid`. -/
def login (k : ℕ) (addr : SocketAddr) (uuid : Uuid) : List Action :=
  [.request ⟨addr, filled 7, 0, .pubkey⟩, .requestStep k (.call .executed), .requestStep k (.call .executed),
    .requestStep k (.ping true uuid), .requestStep k .insert]

/-- The same of somebody who is signed up as miner 2. -/
def signUp (k : ℕ) (addr : SocketAddr) (uuid : Uuid) : List Action :=
  [.request ⟨addr, filled 8, 0, .pubkey⟩, .requestStep k (.call .executed), .requestStep k (.signup .executed 2),
    .requestStep k (.call .executed), .requestStep k (.ping true uuid), .requestStep k .insert]

/-- The client of the request `k` says that it is ready, and gets a range by the task `i`. -/
def getRange (k i : ℕ) (addr : SocketAddr) : List Action :=
  [.receive k (.binary [0]), .deliver] ++ (Assigning.assign i addr).map .assigning

/-- The client of the request `k` sends a solution that is valid for the challenge `filled b`. -/
def sendSolution (k : ℕ) (b : UInt8) : List Action :=
  [.receive k (.binary (2 :: List.replicate 16 b ++ List.replicate 8 0 ++ List.replicate 32 0))]

/-- The next message of the channel is a solution, and its handler `i` goes up to the write. -/
def handleSolution (i : ℕ) : List Action := .deliver :: List.replicate 6 (.assigning (.mining (.handler i)))

end Serving

end BitzPool
