import BitzPool.MiningSteps

/-!
# `handle_ready_clients_system`

The task takes the clients that are ready, computes from the proof how long they may mine, reads the proof again for its
challenge, and gives each client in turn a message with a nonce range of its own.  The message is sent and the range
registered by a task spawned for it (`SendPc`), which reads the ranges of its client in one lock section and writes them
in another.

`Assigning` has these tasks beside those that mine; the nonce counter and the ranges, which are free in `Mining`, change
here as the code changes them (`mining_run`).
-/

namespace BitzPool

open Transition

/-- `NONCE_RANGE_SIZE`. -/
def nonceRangeSize : UInt64 := 40000000

structure ServerMessageStartMining where
  challenge : Challenge
  cutoff : Int64
  nonceRangeStart : UInt64
  nonceRangeEnd : UInt64
  deriving DecidableEq

def ServerMessageStartMining.range (msg : ServerMessageStartMining) : NonceRange :=
  ⟨msg.nonceRangeStart, msg.nonceRangeEnd⟩

/-! ### The task -/

/-- The proof is read twice, for the cutoff and for the challenge. -/
inductive ReadyPc
  | top
  | readyClients
  | readProof (clients : List SocketAddr)
  | getCutoff (clients : List SocketAddr) (latestProof : Proof)
  | bestHash (clients : List SocketAddr)
  | window (clients : List SocketAddr) (shouldMine : Bool) (cutoff : ℤ)
  | readChallenge (clients : List SocketAddr) (cutoff : ℤ)
  | sockets (clients : List SocketAddr) (challenge : Challenge) (cutoff : ℤ)
  | nonce (client : SocketAddr) (sender : AppClientConnection) (clients : List SocketAddr) (challenge : Challenge)
      (cutoff : ℤ)
  | remove (client : SocketAddr) (clients : List SocketAddr) (challenge : Challenge) (cutoff : ℤ)
  deriving DecidableEq

inductive ReadyInput
  | go
  /-- the ready clients, in the order of the set's iteration -/
  | collect (clients : List SocketAddr)
  deriving DecidableEq

/-- What the spawned task holds. -/
structure SendTask where
  sender : AppClientConnection
  msg : ServerMessageStartMining
  deriving DecidableEq

/-- What `handle_ready_clients_system` changes; `ready` is a set. -/
structure ReadyMemory where
  mem : EpochMemory
  ready : List SocketAddr

/-- A step of the task, with the task it spawns. -/
def ReadyPc.step (paused : Bool) (now : ℤ) (m : ReadyMemory) :
    ReadyInput → ReadyPc → Option (ReadyMemory × ReadyPc × Option SendTask)
  | .go, .top => some (m, if paused then .top else .readyClients, none)
  | .collect clients, .readyClients =>
    if clients.Perm m.ready then some (m, if clients = [] then .top else .readProof clients, none) else none
  | .go, .readProof clients => some (m, .getCutoff clients m.mem.proof, none)
  | .go, .getCutoff clients latestProof =>
    let cutoff := BitzPool.getCutoff latestProof 2 now
    some (m, if cutoff < 10 then .bestHash clients else .window clients true cutoff, none)
  | .go, .bestHash clients => some (m, .window clients m.mem.epochHashes.bestHash.solution.isNone 0, none)
  | .go, .window clients shouldMine cutoff =>
    some (m, if shouldMine ∧ m.mem.closed = false then .readChallenge clients cutoff else .top, none)
  | .go, .readChallenge clients cutoff => some (m, .sockets clients m.mem.proof.challenge cutoff, none)
  | .go, .sockets [] _ _ => some (m, .top, none)
  | .go, .sockets (client :: clients) challenge cutoff =>
    match m.mem.sockets.lookup client with
    | some sender => some (m, .nonce client sender clients challenge cutoff, none)
    | none => some (m, .remove client clients challenge cutoff, none)
  | .go, .nonce client sender clients challenge cutoff =>
    -- the range leaves out its last nonce
    some ({ m with mem.nonce := m.mem.nonce + nonceRangeSize }, .remove client clients challenge cutoff,
      some ⟨sender, ⟨challenge, .ofInt cutoff, m.mem.nonce, m.mem.nonce + nonceRangeSize - 1⟩⟩)
  | .go, .remove client clients challenge cutoff =>
    some ({ m with ready := m.ready.erase client }, .sockets clients challenge cutoff, none)
  | _, _ => none

/-! ### The spawned tasks -/

inductive SendPc
  | send
  | read
  | write (currentNonceRanges : Option (List NonceRange))
  | done
  deriving DecidableEq

inductive SendInput
  /-- the answer of the socket, which nothing looks at -/
  | send (ok : Bool)
  | go
  deriving DecidableEq

def SendPc.step (t : SendTask) (m : EpochMemory) : SendInput → SendPc → Option (EpochMemory × SendPc)
  | .send _, .send => some (m, .read)
  | .go, .read => some (m, .write (m.clientNonceRanges.lookup t.sender.uuid))
  | .go, .write currentNonceRanges =>
    some ({ m with
      clientNonceRanges := m.clientNonceRanges.insert t.sender.uuid (currentNonceRanges.getD [] ++ [t.msg.range]) }, .done)
  | _, _ => none

/-! ### The system -/

structure Assigning where
  mining : Mining
  paused : Bool
  ready : List SocketAddr
  pc : ReadyPc
  sends : List (SendTask × SendPc)

namespace Assigning

/-- `ready` is a client's message that it is ready. -/
inductive Action
  | mining (a : Mining.Action)
  | ready (addr : SocketAddr)
  | assign (input : ReadyInput)
  | send (k : ℕ) (input : SendInput)

def stepMining (su : MiningSetup) (s : Assigning) : Mining.Action → Option Assigning
  | .nonceRanges _ _ => none
  | a => (s.mining.step su a).map fun mining => { s with mining := mining }

def stepReady (s : Assigning) (input : ReadyInput) : Option Assigning := do
  let (m, pc, task) ← s.pc.step s.paused s.mining.now ⟨s.mining.mem, s.ready⟩ input
  return { s with
    mining.mem := m.mem
    ready := m.ready
    pc := pc
    sends := s.sends ++ task.toList.map fun t => (t, .send) }

def stepSend (s : Assigning) (k : ℕ) (input : SendInput) : Option Assigning := do
  let t ← s.sends[k]?
  let (m, pc) ← t.2.step t.1 s.mining.mem input
  return { s with mining.mem := m, sends := s.sends.set k (t.1, pc) }

def step (su : MiningSetup) (s : Assigning) : Action → Option Assigning
  | .mining a => s.stepMining su a
  | .ready addr => some { s with ready := s.ready.insert addr }
  | .assign input => s.stepReady input
  | .send k input => s.stepSend k input

/-- The server when it starts with a proof of its account; nothing pauses it. -/
def start (proof : Proof) (db : Database) : Assigning where
  mining := Mining.start proof db
  paused := false
  ready := []
  pc := .top
  sends := []

/-! ### Steps -/

end Assigning

/-- A step of the task leaves the shared memory alone, or takes a range from the counter. -/
theorem ReadyPc.step_cases {paused : Bool} {now : ℤ} {m m' : ReadyMemory} {i : ReadyInput} {pc pc' : ReadyPc}
    {task : Option SendTask} (h : pc.step paused now m i = some (m', pc', task)) :
    (m'.mem = m.mem ∧ task = none) ∨ ∃ client sender clients challenge cutoff,
      i = .go ∧ pc = .nonce client sender clients challenge cutoff ∧ pc' = .remove client clients challenge cutoff ∧
        m' = { m with mem.nonce := m.mem.nonce + nonceRangeSize } ∧
        task = some ⟨sender, ⟨challenge, .ofInt cutoff, m.mem.nonce, m.mem.nonce + nonceRangeSize - 1⟩⟩ := by
  unfold ReadyPc.step at h
  split at h
  · cases h
    exact Or.inl ⟨rfl, rfl⟩
  · split at h <;> cases h
    exact Or.inl ⟨rfl, rfl⟩
  · cases h
    exact Or.inl ⟨rfl, rfl⟩
  · cases h
    exact Or.inl ⟨rfl, rfl⟩
  · cases h
    exact Or.inl ⟨rfl, rfl⟩
  · cases h
    exact Or.inl ⟨rfl, rfl⟩
  · cases h
    exact Or.inl ⟨rfl, rfl⟩
  · cases h
    exact Or.inl ⟨rfl, rfl⟩
  · split at h <;> cases h <;> exact Or.inl ⟨rfl, rfl⟩
  · cases h
    exact Or.inr ⟨_, _, _, _, _, rfl, rfl, rfl, rfl, rfl⟩
  · cases h
    exact Or.inl ⟨rfl, rfl⟩
  · cases h

namespace Assigning

variable {su : MiningSetup} {s s' : Assigning} {a : Action}

/-- The transitions of the system, with what they do to the shared memory. -/
inductive Step (su : MiningSetup) (s : Assigning) : Action → Assigning → Prop
  | mining {a : Mining.Action} {mining : Mining} :
      (∀ nonce ranges, a ≠ .nonceRanges nonce ranges) → s.mining.step su a = some mining →
      Step su s (.mining a) { s with mining := mining }
  | ready {addr : SocketAddr} : Step su s (.ready addr) { s with ready := s.ready.insert addr }
  | move {input : ReadyInput} {ready : List SocketAddr} {pc : ReadyPc} :
      s.pc.step s.paused s.mining.now ⟨s.mining.mem, s.ready⟩ input = some (⟨s.mining.mem, ready⟩, pc, none) →
      Step su s (.assign input) { s with ready := ready, pc := pc }
  | allocate {client : SocketAddr} {sender : AppClientConnection} {clients : List SocketAddr} {challenge : Challenge}
      {cutoff : ℤ} :
      s.pc = .nonce client sender clients challenge cutoff →
      Step su s (.assign .go) { s with
        mining.mem.nonce := s.mining.mem.nonce + nonceRangeSize
        pc := .remove client clients challenge cutoff
        sends := s.sends ++ [(⟨sender, ⟨challenge, .ofInt cutoff, s.mining.mem.nonce,
          s.mining.mem.nonce + nonceRangeSize - 1⟩⟩, .send)] }
  | send {k : ℕ} {ok : Bool} {t : SendTask} :
      s.sends[k]? = some (t, .send) → Step su s (.send k (.send ok)) { s with sends := s.sends.set k (t, .read) }
  | read {k : ℕ} {t : SendTask} :
      s.sends[k]? = some (t, .read) →
      Step su s (.send k .go) { s with
        sends := s.sends.set k (t, .write (s.mining.mem.clientNonceRanges.lookup t.sender.uuid)) }
  | write {k : ℕ} {t : SendTask} {current : Option (List NonceRange)} :
      s.sends[k]? = some (t, .write current) →
      Step su s (.send k .go) { s with
        mining.mem.clientNonceRanges :=
          s.mining.mem.clientNonceRanges.insert t.sender.uuid (current.getD [] ++ [t.msg.range])
        sends := s.sends.set k (t, .done) }

theorem step_sound (h : step su s a = some s') : Step su s a s' := by
  cases a with
  | mining a =>
    by_cases ha : ∃ nonce ranges, a = .nonceRanges nonce ranges
    · obtain ⟨nonce, ranges, rfl⟩ := ha
      cases h
    · have ha : ∀ nonce ranges, a ≠ .nonceRanges nonce ranges := fun nonce ranges he => ha ⟨nonce, ranges, he⟩
      have hstep : (s.mining.step su a).map (fun mining => { s with mining := mining }) = some s' := by
        cases a with
        | nonceRanges nonce ranges => exact absurd rfl (ha nonce ranges)
        | _ => exact h
      obtain ⟨mining, hmining, rfl⟩ := Option.map_eq_some_iff.1 hstep
      exact .mining ha hmining
  | ready addr =>
    cases h
    exact .ready
  | assign input =>
    simp only [step, stepReady, Option.bind_eq_bind, Option.bind_eq_some_iff, Option.pure_def, Option.some.injEq] at h
    obtain ⟨⟨m, pc, task⟩, hstep, h⟩ := h
    rcases ReadyPc.step_cases hstep with ⟨hm, rfl⟩ | ⟨client, sender, clients, challenge, cutoff, rfl, hpc, rfl, rfl, rfl⟩
    · obtain ⟨mem, ready⟩ := m
      subst hm
      subst h
      have hsame : Step su s (.assign input) { s with ready := ready, pc := pc } := .move hstep
      simpa using hsame
    · subst h
      exact .allocate hpc
  | send k input =>
    simp only [step, stepSend, Option.bind_eq_bind, Option.bind_eq_some_iff, Option.pure_def, Option.some.injEq] at h
    obtain ⟨⟨t, pc⟩, hk, ⟨m, pc'⟩, hstep, rfl⟩ := h
    replace hstep : pc.step t s.mining.mem input = some (m, pc') := hstep
    unfold SendPc.step at hstep
    split at hstep
    · cases hstep
      exact .send hk
    · cases hstep
      exact .read hk
    · cases hstep
      exact .write hk
    · cases hstep

private theorem epochHashes_of_counter (m : EpochMemory) (nonce : UInt64) :
    ({ m with nonce := nonce } : EpochMemory).epochHashes = m.epochHashes := rfl

private theorem handlers_of_mem (s : Mining) (m : EpochMemory) : ({ s with mem := m } : Mining).handlers = s.handlers :=
  rfl

/-- Only the mining tasks change handlers and entries. -/
theorem Step.work (h : Step su s a s') :
    (s'.mining.handlers = s.mining.handlers ∧ s'.mining.mem.epochHashes = s.mining.mem.epochHashes) ∨
      ∃ b, a = .mining b ∧ Mining.Step su s.mining b s'.mining := by
  cases h with
  | mining _ hstep => exact Or.inr ⟨_, rfl, Mining.step_sound hstep⟩
  | allocate => exact Or.inl ⟨handlers_of_mem _ _, epochHashes_of_counter _ _⟩
  | _ => exact Or.inl ⟨rfl, rfl⟩

private theorem sockets_of_counter (m : EpochMemory) (nonce : UInt64) :
    ({ m with nonce := nonce } : EpochMemory).sockets = m.sockets := rfl

theorem Step.sockets (h : Step su s a s') (ha : ∀ sockets, a ≠ .mining (.connections sockets)) :
    s'.mining.mem.sockets = s.mining.mem.sockets := by
  cases h with
  | mining _ hstep => exact (Mining.step_sound hstep).sockets fun sockets he => ha sockets (by rw [he])
  | allocate => exact sockets_of_counter _ _
  | _ => rfl

/-- What the tasks do that hand out ranges is free in `Mining`. -/
theorem Step.mining_step (h : Step su s a s') :
    s'.mining = s.mining ∨ ∃ b, Mining.step su s.mining b = some s'.mining := by
  cases h with
  | mining _ hstep => exact Or.inr ⟨_, hstep⟩
  | allocate | write => exact Or.inr ⟨.nonceRanges _ _, rfl⟩
  | _ => exact Or.inl rfl

/-- A run of the system is one of `Mining`, so that all that holds of those holds here. -/
theorem mining_run {as : List Action} (h : run (step su) s as = some s') :
    ∃ bs, run (Mining.step su) s.mining bs = some s'.mining :=
  run_simulates Assigning.mining (fun h => (step_sound h).mining_step) h

/-! ### Data for examples -/

def exampleProof : Proof := ⟨filled 1, 0⟩

def exampleStart : Assigning := start exampleProof (Database.single (filled 7) 0)

/-- The connection `k`. -/
def exampleSender (k : ℕ) : AppClientConnection := ⟨k, filled 7, 1, "rig"⟩

/-- Two clients connect. -/
def connectTwo : List Action :=
  [.mining (.connections
    ((AList.singleton (.v4 0 1) (exampleSender 1) : Sockets).insert (.v4 0 2) (exampleSender 2)))]

/-- A client is ready, and a pass goes on for it until it has found the window open. -/
def startPass (addr : SocketAddr) : List Action :=
  [.ready addr, .assign .go, .assign (.collect [addr]), .assign .go, .assign .go, .assign .go]

/-- The pass reads the challenge, finds the client's socket and takes a range. -/
def takeRange : List Action := List.replicate 3 (.assign .go)

/-- The pass takes its client out of the set and ends. -/
def endPass : List Action := List.replicate 2 (.assign .go)

/-- The task `k` sends its message and registers its range. -/
def register (k : ℕ) : List Action := [.send k (.send true), .send k .go, .send k .go]

/-- A pass that gives the client a range, by the task `k`, which sends it and registers it. -/
def assign (k : ℕ) (addr : SocketAddr) : List Action := startPass addr ++ takeRange ++ endPass ++ register k

/-- A message and its handler `i`, up to the write. -/
def answer (i : ℕ) (msg : BestSolution) : List Action := (Mining.accept i msg).map .mining

/-- The round ends, and the watcher enters the epoch of the next challenge. -/
def nextEpoch : List Action := List.map .mining (Mining.finishRound ++ Mining.watcherEnters ++ [.main .go])

/-- A new proof comes over the websocket. -/
def newProof (p : Proof) : List Action := [.mining (.notify p), .mining .track]

end Assigning

end BitzPool
