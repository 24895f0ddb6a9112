import BitzPool.Submission
import BitzPool.Treasury

/-!
# The tasks that mine

The main loop with the watchers and payout tasks it spawns, `proof_tracking_system`, and the handlers of solutions,
working on one memory.  An action is one atomic step of one of them, or a change by the rest of the world: a
transaction is finalised, connections come and go, nonce ranges are handed out, another task changes the database.

`History` keeps what the statements about epochs speak of; no code reads it.  Messages of the payout tasks are kept with
the number of their transaction.
-/

namespace BitzPool

/-! ### History -/

/-- An entry that was written into the submissions, and the challenge its solution was validated against. -/
structure Accepted where
  uuid : Uuid
  validated : Challenge
  deriving DecidableEq

structure History where
  /-- the snapshots of all rounds, with the challenge of each -/
  rounds : List (Challenge × Submissions)
  /-- the latest snapshot, until the submissions are reset -/
  snapshot : Option Submissions
  /-- the challenge for which the window was opened, until the next snapshot -/
  opened : Option Challenge
  /-- the entries written since, until the next snapshot -/
  accepted : List Accepted
  deriving DecidableEq

def History.takeSnapshot (h : History) (r : MainRound) : History where
  rounds := h.rounds ++ [(r.old.challenge, r.submissions)]
  snapshot := some r.submissions
  opened := none
  accepted := []

def History.exec (h : History) (m : EpochMemory) : EpochOp → History
  | .resetEpoch _ => { h with snapshot := none }
  | .openWindow => { h with opened := some m.epochHashes.challenge }
  | _ => h

theorem History.exec_snapshot (h : History) (m : EpochMemory) (op : EpochOp) :
    (h.exec m op).snapshot = if op.resets then none else h.snapshot := by
  cases op <;> rfl

/-- A handler takes a step: a write counts once the window was opened. -/
def History.accept (h : History) (msg : BestSolution) : HandlerPc → History
  | .write _ validated => if h.opened.isSome then { h with accepted := ⟨msg.uuid, validated⟩ :: h.accepted } else h
  | _ => h

theorem History.accept_of_ne (h : History) (msg : BestSolution) {pc : HandlerPc}
    (hpc : ∀ minerId validated, pc ≠ .write minerId validated) : h.accept msg pc = h := by
  cases pc with
  | write minerId validated => exact absurd rfl (hpc minerId validated)
  | _ => rfl

theorem History.accept_snapshot (h : History) (msg : BestSolution) (pc : HandlerPc) :
    (h.accept msg pc).snapshot = h.snapshot := by
  cases pc with
  | write =>
    show (if _ then _ else _ : History).snapshot = _
    split <;> rfl
  | _ => rfl

/-! ### The system -/

/-- What the mining tasks use of the configuration and of their dependencies. -/
structure MiningSetup where
  config : Config
  fmt : LogFormat
  drillx : Drillx

structure Mining where
  now : ℤ
  mem : EpochMemory
  chain : MineChain
  main : MainPc
  watchers : List Watcher
  tracker : TrackerPc
  handlers : List (BestSolution × HandlerPc)
  payouts : List (Round × PayoutPc)
  messages : List (ℕ × MessageInternalMineSuccess)
  history : History

namespace Mining

inductive Action
  | tick
  | main (input : MainInput)
  | watcher (k : ℕ) (input : WatcherInput)
  | notify (p : Proof)
  | track
  | message (msg : BestSolution)
  | handler (k : ℕ)
  | payout (k : ℕ) (input : PayoutInput)
  | land (tx : MineTx) (ok : Bool)
  | connections (sockets : Sockets)
  | nonceRanges (nonce : UInt64) (ranges : HashMap Uuid (List NonceRange))
  | database (db : Database)

/-- Tell the watcher of a transaction to stop. -/
def stopWatcher (txId : ℕ) (w : Watcher) : Watcher := if w.txId = txId then { w with stopped := true } else w

/-- What a step of the main loop in the memory `m` does besides. -/
def event (s : Mining) (m : EpochMemory) : MainEvent → Mining
  | .none => s
  | .snapshot r => { s with history := s.history.takeSnapshot r }
  | .watch w => { s with watchers := s.watchers ++ [w] }
  | .stop txId paid => { s with
    watchers := s.watchers.map (stopWatcher txId)
    payouts := s.payouts ++ paid.toList.map fun r => (r, .getTransaction) }
  | .op op => { s with history := s.history.exec m op }

def stepMain (su : MiningSetup) (s : Mining) (input : MainInput) : Option Mining := do
  let (m, pc, ev) ← s.main.step su.drillx su.config.poolId s.now s.history.rounds.length ⟨s.mem, s.chain⟩ input
  return { s with mem := m.mem, chain := m.chain, main := pc }.event s.mem ev

def stepWatcher (su : MiningSetup) (s : Mining) (k : ℕ) (input : WatcherInput) : Option Mining := do
  let w ← s.watchers[k]?
  let (m, w', op) ← w.step su.config.poolId s.mem input
  return { s with
    mem := m
    watchers := s.watchers.set k w'
    history := op.elim s.history fun op => s.history.exec s.mem op }

def stepHandler (su : MiningSetup) (s : Mining) (k : ℕ) : Option Mining := do
  let t ← s.handlers[k]?
  let (m, pc) ← t.2.step su.drillx t.1 s.mem
  return { s with mem := m, handlers := s.handlers.set k (t.1, pc), history := s.history.accept t.1 t.2 }

def stepPayout (su : MiningSetup) (s : Mining) (k : ℕ) (input : PayoutInput) : Option Mining := do
  let t ← s.payouts[k]?
  let (db, pc, msgs) ← t.2.step su.fmt su.config t.1 s.mem.db input
  return { s with
    mem.db := db
    payouts := s.payouts.set k (t.1, pc)
    messages := s.messages ++ msgs.map fun msg => (t.1.sig, msg) }

def step (su : MiningSetup) (s : Mining) : Action → Option Mining
  | .tick => some { s with now := s.now + 1 }
  | .main input => s.stepMain su input
  | .watcher k input => s.stepWatcher su k input
  | .notify p => (s.tracker.notify p s.mem).map fun t => { s with tracker := t }
  | .track => (s.tracker.track s.mem).map fun (m, t) => { s with mem := m, tracker := t }
  | .message msg => some { s with handlers := s.handlers ++ [(msg, .window)] }
  | .handler k => s.stepHandler su k
  | .payout k input => s.stepPayout su k input
  | .land tx ok => (s.chain.land? tx ok).map fun c => { s with chain := c }
  | .connections sockets => some { s with mem.sockets := sockets }
  | .nonceRanges nonce ranges => some { s with mem.nonce := nonce, mem.clientNonceRanges := ranges }
  | .database db => some { s with mem.db := db }

/-- The server when it starts with a proof of its account; the window is open for its challenge. -/
def start (proof : Proof) (db : Database) : Mining where
  now := 0
  mem := EpochMemory.start proof db
  chain := ∅
  main := .top
  watchers := []
  tracker := .idle
  handlers := []
  payouts := []
  messages := []
  history := ⟨[], none, some proof.challenge, []⟩

end Mining

/-! ### Data for examples -/

/-- A digest is valid for the challenge with the same bytes, and every solution has difficulty 12. -/
def exampleDrillx : Drillx where
  isValid s c := s.d.head = c.head
  difficulty _ := 12

def exampleMiningSetup : MiningSetup := ⟨exampleSetup.config, exampleSetup.fmt, exampleDrillx⟩

/-- A solution by the connection `k`, valid for the challenge `filled b`. -/
def exampleBest (k : ℕ) (b : UInt8) : BestSolution where
  addr := .v4 0 (.ofNat k)
  solution := ⟨List.Vector.replicate 16 b, List.Vector.replicate 8 0⟩
  uuid := k

namespace Mining

/-- The server in the examples, with two connections who have a nonce range. -/
def exampleWorld : List Action :=
  [.connections ((AList.singleton (.v4 0 1) ⟨1, filled 7, 1, "rig"⟩ : Sockets).insert (.v4 0 2) ⟨2, filled 8, 2, "rig"⟩),
    .nonceRanges 20 ((AList.singleton 1 [⟨0, 10⟩] : HashMap Uuid (List NonceRange)).insert 2 [⟨0, 20⟩])]

def exampleStart : Mining := start ⟨filled 1, 0⟩ (Database.single (filled 7) 0)

/-- A message and its handler `i`, up to the write. -/
def accept (i : ℕ) (msg : BestSolution) : List Action := [.message msg] ++ List.replicate 6 (.handler i)

/-- The main loop from its top to the snapshot, when the cutoff is due. -/
def takeSnapshot : List Action := List.replicate 5 (.main .go)

/-- An attempt that gets the transaction `tx` sent. -/
def sendTx : List Action :=
  [.main (.proofAndConfig none), .main (.blockhash true), .main (.simulate false), .main (.send true)]

/-- The transaction is finalised and seen, and the payout task is spawned. -/
def seeFinalized (tx : MineTx) : List Action := [.land tx true, .main (.status (.finalized true)), .main .go]

/-- The first transaction of a round is sent and finalised while its watcher has not stopped; the next proof comes over
the websocket, and the main loop finds that the epoch was not entered yet. -/
def finishRound : List Action :=
  List.replicate 60 .tick ++ takeSnapshot ++ sendTx ++ [.watcher 0 .go, .notify ⟨filled 2, 60⟩, .track] ++
    seeFinalized ⟨0, 0⟩ ++ [.main .go]

/-- The watcher enters the epoch. -/
def watcherEnters : List Action := [.watcher 0 .go] ++ List.replicate 6 (.watcher 0 (.op .executed))

end Mining

end BitzPool
