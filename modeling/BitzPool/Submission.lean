import BitzPool.Epoch
import BitzPool.Claims
import BitzPool.PayoutTask

/-!
# `pool_submission_system`

The main loop waits for the cutoff of the proof, closes the submission window, snapshots the submissions with the best
solution, and makes up to ten attempts to have the solution mined (`MainPc`).  Each transaction it gets sent has a
watcher that waits for the next proof and enters the new epoch (`Watcher`).  When a transaction is finalised the main
loop spawns the payout task of the round and makes sure that the new epoch is entered; when all attempts fail it
discards the submissions and reopens the window.

Lock sections, database calls and RPC calls are steps of their own, as in the claim system.
-/

namespace BitzPool

/-! ### Mine transactions -/

/-- A mine transaction: its number, and the round it belongs to. -/
structure MineTx where
  id : ℕ
  round : ℕ
  deriving DecidableEq

abbrev MinedTx := Broadcast.Landed MineTx

abbrev MineChain := Broadcast.Chain MineTx.id

/-! ### The cutoff -/

/-- Saturation to `i64`. -/
def satI64 (x : ℤ) : ℤ := max (-2 ^ 63) (min (2 ^ 63 - 1) x)

def getCutoff (proof : Proof) (bufferTime now : ℤ) : ℤ :=
  satI64 (satI64 (satI64 (proof.lastHashAt.toInt + 60) - bufferTime) - now)

/-! ### Watchers -/

inductive WatcherPc
  | top
  | readProof
  | getProof
  | enter (ops : List EpochOp)
  | done
  deriving DecidableEq

/-- The watcher of a transaction: the proof it was sent for, whether it was told to stop, and where it stands. -/
structure Watcher where
  txId : ℕ
  old : Proof
  stopped : Bool
  pc : WatcherPc
  deriving DecidableEq

inductive WatcherInput
  | go
  | getProof (p : Option Proof)
  | op (o : CallOutcome)
  deriving DecidableEq

/-- A step of a watcher, with the operation it executes. -/
def Watcher.step (cfg : RowId) (m : EpochMemory) (w : Watcher) :
    WatcherInput → Option (EpochMemory × Watcher × Option EpochOp)
  | .go =>
    match w.pc with
    | .top => some (m, { w with pc := if w.stopped then .done else .readProof }, none)
    | .readProof => some (m, { w with pc :=
        if w.old.challenge = m.proof.challenge then .getProof else .enter (watcherWsReset w.old m.proof) }, none)
    | .enter [] => some (m, { w with pc := .done }, none)
    | _ => none
  | .getProof answer =>
    match w.pc with
    | .getProof => some (m, { w with pc :=
        match answer with
        | some p => if w.old.challenge ≠ p.challenge then .enter (watcherRpcReset w.old p) else .top
        | none => .top }, none)
    | _ => none
  | .op o =>
    match w.pc with
    | .enter (op :: ops) =>
      some ((op.exec cfg o m).1, { w with pc := .enter ((op.exec cfg o m).2 ++ ops) }, some op)
    | _ => none

/-! ### The main loop -/

/-- What the main loop holds for a round: its number, the proof it read, the best solution and the submissions. -/
structure MainRound where
  index : ℕ
  old : Proof
  bestSolution : Option Solution
  submissions : Submissions
  deriving DecidableEq

/-- What the payout task of a mined round captures. -/
def MainRound.payout (dx : Drillx) (r : MainRound) (best : Solution) (tx : MineTx) : Round where
  sig := tx.id
  challenge := r.old.challenge
  submissions := r.submissions
  bestSolution := best
  difficulty := dx.difficulty best

inductive MainPc
  | top
  | cutoff (old : Proof)
  | solution (old : Proof)
  | close (old : Proof)
  | snapshot (old : Proof)
  | attempt (r : MainRound) (i : ℕ)
  | staleProof (r : MainRound) (p : Proof)
  | blockhash (r : MainRound) (best : Solution) (i : ℕ)
  | simulate (r : MainRound) (best : Solution) (i : ℕ) (tx : MineTx)
  | send (r : MainRound) (best : Solution) (i : ℕ) (tx : MineTx) (attempts : ℕ)
  | poll (r : MainRound) (best : Solution) (i : ℕ) (tx : MineTx)
  | stop (r : MainRound) (best : Solution) (i : ℕ) (tx : MineTx) (success : Bool)
  | readProof (r : MainRound)
  | getProof (r : MainRound) (latest : Proof)
  | compareEpoch (r : MainRound) (latest : Proof)
  | enter (ops : List EpochOp)
  | discard (r : MainRound) (ops : List EpochOp)
  deriving DecidableEq

/-- What decides a step of the main loop; `go` is a lock section. -/
inductive MainInput
  | go
  | proofAndConfig (p : Option Proof)
  | blockhash (ok : Bool)
  | simulate (invalidHash : Bool)
  | send (ok : Bool)
  | status (a : StatusAnswer)
  /-- 200 seconds have passed -/
  | expire
  | getProof (p : Option Proof)
  | op (o : CallOutcome)
  deriving DecidableEq

/-- What a step of the main loop does besides: it snapshots a round, spawns a watcher, stops one and spawns the payout
task of the round, or executes an operation. -/
inductive MainEvent
  | none
  | snapshot (r : MainRound)
  | watch (w : Watcher)
  | stop (txId : ℕ) (paid : Option Round)
  | op (op : EpochOp)
  deriving DecidableEq

/-- What the main loop changes. -/
structure MainMemory where
  mem : EpochMemory
  chain : MineChain

/-- The attempts of a round, and the value of `rpc_send_attempts` that ends one. -/
def maxAttempts : ℕ := 10

def maxSendAttempts : ℕ := 5

/-- A step of the main loop; `rounds` numbers the rounds. -/
def MainPc.step (dx : Drillx) (cfg : RowId) (now : ℤ) (rounds : ℕ) (m : MainMemory) :
    MainInput → MainPc → Option (MainMemory × MainPc × MainEvent)
  | .go, .top => some (m, .cutoff m.mem.proof, .none)
  | .go, .cutoff old => some (m, if getCutoff old 1 now ≤ 0 then .solution old else .top, .none)
  | .go, .solution old => some (m, if m.mem.epochHashes.bestHash.solution.isSome then .close old else .top, .none)
  | .go, .close old => some ({ m with mem.closed := true }, .snapshot old, .none)
  | .go, .snapshot old =>
    let r := ⟨rounds, old, m.mem.epochHashes.bestHash.solution, m.mem.epochHashes.submissions⟩
    some (m, .attempt r 0, .snapshot r)
  | .go, .attempt r i =>
    if maxAttempts ≤ i then some (m, .discard r discardOps, .none)
    else if r.bestSolution = none then some (m, .attempt r (i + 1), .none)
    else none
  | .proofAndConfig answer, .attempt r i =>
    if maxAttempts ≤ i then none
    else
      match r.bestSolution, answer with
      | none, _ => none
      | some best, none => some (m, .blockhash r best i, .none)
      | some best, some p =>
        if dx.isValid best p.challenge then some (m, .blockhash r best i, .none)
        else some (m, .staleProof r p, .none)
  | .go, .staleProof r p => some ({ m with mem.proof := p }, .discard r discardOps, .none)
  | .blockhash ok, .blockhash r best i =>
    if ok then
      some ({ m with chain := m.chain.build }, .simulate r best i ⟨m.chain.nextTx, r.index⟩, .none)
    else some (m, .attempt r (i + 1), .none)
  | .simulate invalidHash, .simulate r best i tx =>
    if invalidHash then some (m, .discard r discardOps, .none)
    else some (m, .send r best i tx 1, .none)
  | .send ok, .send r best i tx attempts =>
    -- whatever the answer, the transaction may have been broadcast
    let m' := { m with chain := m.chain.send tx }
    if ok then some (m', .poll r best i tx, .watch ⟨tx.id, r.old, false, .top⟩)
    else if maxSendAttempts ≤ attempts + 1 then some (m', .discard r discardOps, .none)
    else some (m', .send r best i tx (attempts + 1), .none)
  | .status .pending, .poll r best i tx => some (m, .poll r best i tx, .none)
  | .status (.finalized ok), .poll r best i tx =>
    if ⟨tx, ok⟩ ∈ m.chain.landed then some (m, .stop r best i tx ok, .none) else none
  | .expire, .poll r best i tx => some (m, .stop r best i tx false, .none)
  | .go, .stop r best _ tx true => some (m, .readProof r, .stop tx.id (some (r.payout dx best tx)))
  | .go, .stop r _ i tx false => some (m, .attempt r (i + 1), .stop tx.id none)
  | .go, .readProof r =>
    some (m, if r.old.challenge = m.mem.proof.challenge then .getProof r m.mem.proof
      else .compareEpoch r m.mem.proof, .none)
  | .getProof answer, .getProof r latest =>
    match answer with
    | none => some (m, .readProof r, .none)
    | some p => some (m, if r.old.challenge ≠ p.challenge then .enter (mainRpcReset latest p) else .readProof r, .none)
  | .go, .compareEpoch _ latest =>
    some (m, if latest.challenge = m.mem.epochHashes.challenge then .top else .enter (mainWsReset latest), .none)
  | .go, .enter [] => some (m, .top, .none)
  | .op o, .enter (op :: ops) =>
    some ({ m with mem := (op.exec cfg o m.mem).1 }, .enter ((op.exec cfg o m.mem).2 ++ ops), .op op)
  | .go, .discard _ [] => some (m, .top, .none)
  | .op o, .discard r (op :: ops) =>
    some ({ m with mem := (op.exec cfg o m.mem).1 }, .discard r ((op.exec cfg o m.mem).2 ++ ops), .op op)
  | _, _ => none

end BitzPool
