import BitzPool.Database

/-!
# The memory of an epoch

The mining tasks share the proof, the last challenge, the submissions of the epoch, the submission window, the nonce
counter and the nonce ranges, each behind a lock of its own, and the database.  A change of one of them under its lock
is an `EpochOp`; entering a new epoch is a list of them, which the source writes out five times, in five orders.  The
handler of a client's solution (`HandlerPc.step`) and `proof_tracking_system` (`TrackerPc`) work on the same memory.
-/

namespace BitzPool

/-- `Range<u64>`. -/
structure NonceRange where
  start : UInt64
  stop : UInt64
  deriving DecidableEq

def NonceRange.contains (r : NonceRange) (n : UInt64) : Bool := r.start ≤ n && n < r.stop

structure EpochMemory where
  proof : Proof
  lastChallenge : Challenge
  epochHashes : EpochHashes
  closed : Bool
  nonce : UInt64
  clientNonceRanges : HashMap Uuid (List NonceRange)
  sockets : Sockets
  db : Database

/-- The server's memory when it starts with a proof of its account. -/
def EpochMemory.start (proof : Proof) (db : Database) : EpochMemory where
  proof := proof
  lastChallenge := filled 0
  epochHashes := ⟨proof.challenge, ⟨none, 0⟩, ∅⟩
  closed := false
  nonce := 0
  clientNonceRanges := ∅
  sockets := ∅
  db := db

/-! ### Entering an epoch -/

/-- A change of the memory under one lock, or a database call. -/
inductive EpochOp
  | setProof (p : Proof)
  | setLastChallenge (c : Challenge)
  | resetNonce
  | resetRanges
  /-- empty the submissions, for a new challenge or for the same one -/
  | resetEpoch (c : Option Challenge)
  | openWindow
  | addChallenge (c : Challenge)
  | verifyChallenge (c : Challenge)
  deriving DecidableEq

/-- What an operation does, and the operations that follow from it: a challenge that cannot be added is looked up,
and if it is not there it is added again. -/
def EpochOp.exec (cfg : RowId) (o : CallOutcome) (m : EpochMemory) : EpochOp → EpochMemory × List EpochOp
  | .setProof p => ({ m with proof := p }, [])
  | .setLastChallenge c => ({ m with lastChallenge := c }, [])
  | .resetNonce => ({ m with nonce := 0 }, [])
  | .resetRanges => ({ m with clientNonceRanges := ∅ }, [])
  | .resetEpoch c => ({ m with epochHashes := ⟨c.getD m.epochHashes.challenge, ⟨none, 0⟩, ∅⟩ }, [])
  | .openWindow => ({ m with closed := false }, [])
  | .addChallenge c =>
    match addNewChallenge o ⟨cfg, c⟩ m.db with
    | (.ok _, db) => ({ m with db := db }, [])
    | (.error _, db) => ({ m with db := db }, [.verifyChallenge c])
  | .verifyChallenge c =>
    match getChallengeByChallenge o c m.db with
    | .ok _ => (m, [])
    | .error _ => (m, [.addChallenge c])

/-- The watcher, with a new proof from the RPC node. -/
def watcherRpcReset (old p : Proof) : List EpochOp :=
  [.setProof p, .setLastChallenge old.challenge, .resetNonce, .resetRanges, .resetEpoch (some p.challenge), .openWindow,
    .addChallenge p.challenge]

/-- The watcher, with a new proof from the websocket. -/
def watcherWsReset (old latest : Proof) : List EpochOp :=
  [.setLastChallenge old.challenge, .addChallenge latest.challenge, .resetNonce, .resetRanges,
    .resetEpoch (some latest.challenge), .openWindow]

/-- The main loop, with a new proof from the RPC node.  The row it adds is for the challenge it read before. -/
def mainRpcReset (latest p : Proof) : List EpochOp :=
  [.setProof p, .resetNonce, .resetRanges, .resetEpoch (some p.challenge), .openWindow, .addChallenge latest.challenge]

/-- The main loop, with a new proof from the websocket. -/
def mainWsReset (latest : Proof) : List EpochOp :=
  [.resetNonce, .resetRanges, .resetEpoch (some latest.challenge), .openWindow, .addChallenge latest.challenge]

/-- The failure path of the main loop. -/
def discardOps : List EpochOp := [.resetNonce, .resetRanges, .resetEpoch none, .openWindow]

/-- The operation empties the submissions. -/
def EpochOp.resets : EpochOp → Bool
  | .resetEpoch _ => true
  | _ => false

section

variable {cfg : RowId} {o : CallOutcome} {m : EpochMemory} {op op' : EpochOp}

theorem EpochOp.exec_closed (h : op ≠ .openWindow) : (op.exec cfg o m).1.closed = m.closed := by
  cases op with
  | openWindow => exact absurd rfl h
  | addChallenge | verifyChallenge => simp only [exec]; split <;> rfl
  | _ => rfl

theorem EpochOp.exec_epochHashes (h : op.resets = false) : (op.exec cfg o m).1.epochHashes = m.epochHashes := by
  cases op with
  | resetEpoch => cases h
  | addChallenge | verifyChallenge => simp only [exec]; split <;> rfl
  | _ => rfl

theorem EpochOp.exec_proof : (op.exec cfg o m).1.proof = match op with
    | .setProof p => p
    | _ => m.proof := by
  cases op with
  | addChallenge | verifyChallenge => simp only [exec]; split <;> rfl
  | _ => rfl

/-- What follows from an operation does not empty the submissions. -/
theorem EpochOp.exec_resets (h : op' ∈ (op.exec cfg o m).2) : op'.resets = false := by
  cases op with
  | addChallenge | verifyChallenge =>
    simp only [exec] at h
    split at h
    · cases h
    · rw [List.mem_singleton.1 h]
      rfl
  | _ => cases h

/-- Executing an operation adds no reset to those that are ahead. -/
theorem EpochOp.any_resets_exec {ops : List EpochOp} (h : (op :: ops).any EpochOp.resets = false) :
    ((op.exec cfg o m).2 ++ ops).any EpochOp.resets = false := by
  rw [List.any_cons, Bool.or_eq_false_iff] at h
  rw [List.any_append, Bool.or_eq_false_iff]
  exact ⟨List.any_eq_false.2 fun op' hop' => by simp [exec_resets hop'], h.2⟩

end

/-! ### Handlers of solutions -/

/-- `ClientMessage::BestSolution`. -/
structure BestSolution where
  addr : SocketAddr
  solution : Solution
  uuid : Uuid
  deriving DecidableEq

/-- Why a handler ends. -/
inductive HandlerEnd
  | late
  | noRange
  | outOfRange
  | noSocket
  | invalid
  | lowDiff
  | notBetter
  | written
  deriving DecidableEq

/-- Where a handler stands.  `validated` is the challenge the solution was validated against; nothing reads it. -/
inductive HandlerPc
  | window
  | ranges
  | socket
  | proof (minerId : MinerId)
  | read (minerId : MinerId) (validated : Challenge)
  | write (minerId : MinerId) (validated : Challenge)
  | done (e : HandlerEnd)
  deriving DecidableEq

/-- `MIN_HASHPOWER * 2u64.pow(diff - MIN_DIFF)`. -/
def realHashpowerOf (diff : UInt32) : UInt64 := minHashpower * UInt64.ofNat (2 ^ (diff - minDiff).toNat)

def BestSolution.submission (dx : Drillx) (msg : BestSolution) (minerId : MinerId) : InternalMessageSubmission where
  minerId := minerId
  suppliedDiff := dx.difficulty msg.solution
  suppliedNonce := msg.solution.nonce
  hashpower := min (realHashpowerOf (dx.difficulty msg.solution)) maxCalculatedHashpower
  realHashpower := realHashpowerOf (dx.difficulty msg.solution)
  capped := rfl

/-- The write of a submission, under the lock of `epoch_hashes`. -/
def EpochHashes.accept (e : EpochHashes) (msg : BestSolution) (sub : InternalMessageSubmission) : EpochHashes where
  challenge := e.challenge
  submissions := e.submissions.insert msg.uuid sub
  bestHash := if e.bestHash.difficulty < sub.suppliedDiff then ⟨some msg.solution, sub.suppliedDiff⟩ else e.bestHash

def HandlerPc.step (dx : Drillx) (msg : BestSolution) (m : EpochMemory) : HandlerPc → Option (EpochMemory × HandlerPc)
  | .window => some (m, if m.closed then .done .late else .ranges)
  | .ranges =>
    match m.clientNonceRanges.lookup msg.uuid with
    | none => some (m, .done .noRange)
    | some nonceRanges =>
      some (m, if nonceRanges.any fun r => r.contains msg.solution.nonce then .socket else .done .outOfRange)
  | .socket =>
    match m.sockets.lookup msg.addr with
    | none => some (m, .done .noSocket)
    | some conn => some (m, .proof conn.minerId)
  | .proof minerId =>
    if dx.isValid msg.solution m.proof.challenge then
      if minDiff ≤ dx.difficulty msg.solution then some (m, .read minerId m.proof.challenge)
      else some (m, .done .lowDiff)
    else some (m, .done .invalid)
  | .read minerId validated =>
    match m.epochHashes.submissions.lookup msg.uuid with
    | some old =>
      if old.suppliedDiff < dx.difficulty msg.solution then some (m, .write minerId validated)
      else some (m, .done .notBetter)
    | none => some (m, .write minerId validated)
  | .write minerId _ =>
    some ({ m with epochHashes := m.epochHashes.accept msg (msg.submission dx minerId) }, .done .written)
  | .done _ => none

/-- The handler has seen the window open and may still write. -/
def HandlerPc.sawOpen : HandlerPc → Bool
  | .ranges | .socket | .proof _ | .read _ _ | .write _ _ => true
  | .window | .done _ => false

/-! ### `proof_tracking_system` -/

inductive TrackerPc
  | idle
  | write (p : Proof)
  deriving DecidableEq

/-- A notification with a new proof: it is dropped when its challenge is the last one. -/
def TrackerPc.notify (p : Proof) (m : EpochMemory) : TrackerPc → Option TrackerPc
  | .idle => some (if m.lastChallenge = p.challenge then .idle else .write p)
  | .write _ => none

def TrackerPc.track (m : EpochMemory) : TrackerPc → Option (EpochMemory × TrackerPc)
  | .idle => none
  | .write p => some ({ m with proof := p }, .idle)

end BitzPool
