import BitzPool.UpdateRewards
import BitzPool.Lib.Split

/-!
# `pool_mine_success_system`

The system receives a mined reward, computes what every submission of the snapshot earned (`earnedRewards`),
collects an earnings row, a credit and a submissions row for every connection that carries the submission's uuid
(`submissionRows`, `payoutRows`), and then issues its statements in batches of 200 (`statements`).  `MineTask` is
the task as a state machine: one database call a step, calls of the batch loops repeated until they succeed, a
failed lookup a panic.

Amounts are computed in `u128` with saturating operations and cast back to `u64`; `saturatingDiv` panics on a zero
divisor, which is `none`.
-/

namespace BitzPool

open Keyed Split

/-! ### Arithmetic of the split -/

def u128Max : ℕ := 2 ^ 128 - 1

def saturatingMul (a b : ℕ) : ℕ := min (a * b) u128Max

def saturatingDiv (a b : ℕ) : Option ℕ := if b = 0 then none else some (a / b)

/-- The precision of the proportions, in parts of the whole. -/
def percentScale : ℕ := 1000000

def hashpowerPercent (hashpower totalHashpower : UInt64) : Option ℕ :=
  saturatingDiv (saturatingMul hashpower.toNat percentScale) totalHashpower.toNat

/-- `msg.rewards - msg.commissions`. -/
def MessageInternalMineSuccess.totalRewards (msg : MessageInternalMineSuccess) : UInt64 :=
  msg.rewards - msg.commissions

/-- What a submission earned; the proportion by capped hashpower is computed too but pays nothing. -/
def earnedRewards (msg : MessageInternalMineSuccess) (sub : InternalMessageSubmission) : Option UInt64 := do
  let _ ← hashpowerPercent sub.hashpower msg.totalHashpower
  let realHashpowerPercent ← hashpowerPercent sub.realHashpower msg.totalRealHashpower
  let earned ← saturatingDiv (saturatingMul realHashpowerPercent msg.totalRewards.toNat) percentScale
  return UInt64.ofNat earned

/-! ### Rows -/

/-- The three lists the loop over the submissions pushes to. -/
structure PayoutRows where
  earnings : List InsertEarning
  rewards : List UpdateReward
  submissions : List InsertSubmission
  deriving DecidableEq

def PayoutRows.append (a b : PayoutRows) : PayoutRows :=
  ⟨a.earnings ++ b.earnings, a.rewards ++ b.rewards, a.submissions ++ b.submissions⟩

/-- `supplied_diff as i8`. -/
def diffAsI8 (diff : UInt32) : Int8 := diff.toUInt8.toInt8

/-- What one connection with the submission's uuid pushes. -/
def connectionRows (poolId : RowId) (msg : MessageInternalMineSuccess) (sub : InternalMessageSubmission)
    (earned : UInt64) (conn : AppClientConnection) : PayoutRows where
  earnings := [⟨sub.minerId, poolId, msg.challengeId, earned, diffAsI8 sub.suppliedDiff, conn.workerName⟩]
  rewards := [⟨sub.minerId, earned⟩]
  submissions := [⟨sub.minerId, msg.challengeId, sub.suppliedNonce, diffAsI8 sub.suppliedDiff⟩]

/-- The connections with a given uuid, in the order of the map's iteration. -/
def connectionsOf (socks : Sockets) (uuid : Uuid) : List AppClientConnection :=
  (socks.entries.map Sigma.snd).filter fun conn => conn.uuid = uuid

/-- The pass of the loop over one submission. -/
def submissionRows (poolId : RowId) (msg : MessageInternalMineSuccess) (socks : Sockets) (uuid : Uuid)
    (sub : InternalMessageSubmission) : Option PayoutRows :=
  (earnedRewards msg sub).map fun earned =>
    ((connectionsOf socks uuid).map (connectionRows poolId msg sub earned)).foldl PayoutRows.append ⟨[], [], []⟩

/-- The loop over the submissions. -/
def payoutRows (poolId : RowId) (msg : MessageInternalMineSuccess) (socks : Sockets) : Option PayoutRows :=
  msg.submissions.entries.foldlM
    (fun rows e => (submissionRows poolId msg socks e.1 e.2).map rows.append) ⟨[], [], []⟩

/-! ### Statements -/

/-- The database calls of the task. -/
inductive MineStmt
  | getMinerById (id : MinerId)
  | getMinerRewardsById (id : MinerId)
  | addNewEarningsBatch (batch : List InsertEarning)
  | updateRewards (batch : List UpdateReward)
  | addNewSubmissionsBatch (batch : List InsertSubmission)
  | updatePoolRewards (rewards : UInt64)
  | getSubmissionIdWithNonce (nonce : UInt64) (challenge : Challenge) (rewards : UInt64)
  | updateChallengeRewards (challenge : Challenge) (submissionId : ℕ) (rewards : UInt64)
  deriving DecidableEq

def batchSize : ℕ := 200

/-- All calls for a message, in order; the update of the challenge follows when its submission is found. -/
def statements (msg : MessageInternalMineSuccess) (rows : PayoutRows) : List MineStmt :=
  (msg.submissions.entries.flatMap fun e =>
    [.getMinerById e.2.minerId, .getMinerRewardsById e.2.minerId]) ++
  (chunks batchSize rows.earnings).map .addNewEarningsBatch ++
  (chunks batchSize rows.rewards).map .updateRewards ++
  (chunks batchSize rows.submissions).map .addNewSubmissionsBatch ++
  [.updatePoolRewards msg.rewards, .getSubmissionIdWithNonce msg.bestNonce msg.challenge msg.rewards]

/-- What follows a call: the next calls, another attempt, or a panic. -/
inductive Flow
  | next (more : List MineStmt)
  | retry
  | panic

/-- `while let Err(_) = call`. -/
def retrying {β : Type} (res : Except AppDatabaseError β × Database) : Flow × Database :=
  match res with
  | (.ok _, db) => (.next [], db)
  | (.error _, db) => (.retry, db)

/-- `call.unwrap()`. -/
def unwrapping {β : Type} (res : Except AppDatabaseError β) (db : Database) : Flow × Database :=
  match res with
  | .ok _ => (.next [], db)
  | .error _ => (.panic, db)

def MineStmt.exec (o : CallOutcome) (db : Database) : MineStmt → Flow × Database
  | .getMinerById id => unwrapping (BitzPool.getMinerById o id db) db
  | .getMinerRewardsById id => unwrapping (BitzPool.getMinerRewardsById o id db) db
  | .addNewEarningsBatch batch => retrying (BitzPool.addNewEarningsBatch o batch db)
  | .updateRewards batch => retrying (BitzPool.updateRewards o batch db)
  | .addNewSubmissionsBatch batch => retrying (BitzPool.addNewSubmissionsBatch o batch db)
  | .updatePoolRewards rewards => retrying (BitzPool.updatePoolRewards o rewards db)
  | .getSubmissionIdWithNonce nonce challenge rewards =>
    match BitzPool.getSubmissionIdWithNonce o nonce db with
    | .ok id => (.next [.updateChallengeRewards challenge id rewards], db)
    | .error _ => (.next [], db)
  -- a failure is logged and skipped
  | .updateChallengeRewards challenge id rewards =>
    (.next [], (BitzPool.updateChallengeRewards o challenge id rewards db).2)

/-- The task: the calls still to be made for the current message, and whether it has panicked. -/
structure MineTask where
  todo : List MineStmt
  dead : Bool
  deriving DecidableEq

/-- Receive a message and snapshot the sockets; a division by zero on the way panics. -/
def MineTask.receive (poolId : RowId) (msg : MessageInternalMineSuccess) (socks : Sockets) (t : MineTask) :
    Option MineTask :=
  if t.dead = false ∧ t.todo = [] then
    match payoutRows poolId msg socks with
    | none => some ⟨[], true⟩
    | some rows => some ⟨statements msg rows, false⟩
  else none

/-- An idle task that receives a message has the calls for it to make, or panics. -/
theorem MineTask.receive_eq_some {poolId : RowId} {msg : MessageInternalMineSuccess} {socks : Sockets}
    {t t' : MineTask} (h : t.receive poolId msg socks = some t') :
    t.dead = false ∧ t.todo = [] ∧
      (t' = ⟨[], true⟩ ∨ ∃ rows, payoutRows poolId msg socks = some rows ∧ t' = ⟨statements msg rows, false⟩) := by
  unfold receive at h
  split at h
  · next hidle =>
    refine ⟨hidle.1, hidle.2, ?_⟩
    split at h
    · cases h
      exact Or.inl rfl
    · next rows hrows =>
      cases h
      exact Or.inr ⟨rows, hrows, rfl⟩
  · cases h

/-- Make the next call. -/
def MineTask.call (o : CallOutcome) (db : Database) (t : MineTask) : Option (Database × MineTask) :=
  match t with
  | ⟨s :: todo, false⟩ =>
    match s.exec o db with
    | (.next more, db') => some (db', ⟨more ++ todo, false⟩)
    | (.retry, db') => some (db', ⟨s :: todo, false⟩)
    | (.panic, db') => some (db', ⟨s :: todo, true⟩)
  | _ => none

/-- The next call, as a step of the database and the task. -/
def MineTask.proceed (x : Database × MineTask) (o : CallOutcome) : Option (Database × MineTask) := x.2.call o x.1

/-! ### What the statements carry -/

def MineStmt.earnings : MineStmt → List InsertEarning
  | .addNewEarningsBatch batch => batch
  | _ => []

def MineStmt.credits : MineStmt → List UpdateReward
  | .updateRewards batch => batch
  | _ => []

def MineStmt.submissions : MineStmt → List InsertSubmission
  | .addNewSubmissionsBatch batch => batch
  | _ => []

/-- The amount a statement adds to the pool's total. -/
def MineStmt.pooled : MineStmt → ℕ
  | .updatePoolRewards rewards => rewards.toNat
  | _ => 0

theorem batchSize_pos : 0 < batchSize := by decide

theorem flatMap_const_nil {α β : Type} (l : List α) : (l.flatMap fun _ => ([] : List β)) = [] :=
  List.flatMap_eq_nil_iff.2 fun _ _ => rfl

/-- What the statements of a message carry, kind by kind. -/
theorem flatMap_statements {β : Type} (f : MineStmt → List β) (msg : MessageInternalMineSuccess)
    (rows : PayoutRows) :
    (statements msg rows).flatMap f =
      (msg.submissions.entries.flatMap fun e =>
        f (.getMinerById e.2.minerId) ++ f (.getMinerRewardsById e.2.minerId)) ++
      ((chunks batchSize rows.earnings).flatMap fun batch => f (.addNewEarningsBatch batch)) ++
      ((chunks batchSize rows.rewards).flatMap fun batch => f (.updateRewards batch)) ++
      ((chunks batchSize rows.submissions).flatMap fun batch => f (.addNewSubmissionsBatch batch)) ++
      (f (.updatePoolRewards msg.rewards) ++
        f (.getSubmissionIdWithNonce msg.bestNonce msg.challenge msg.rewards)) := by
  simp [statements, List.flatMap_assoc, List.flatMap_map]

theorem statements_earnings (msg : MessageInternalMineSuccess) (rows : PayoutRows) :
    (statements msg rows).flatMap MineStmt.earnings = rows.earnings := by
  simp [flatMap_statements, MineStmt.earnings, flatMap_const_nil, flatten_chunks batchSize_pos]

theorem statements_credits (msg : MessageInternalMineSuccess) (rows : PayoutRows) :
    (statements msg rows).flatMap MineStmt.credits = rows.rewards := by
  simp [flatMap_statements, MineStmt.credits, flatMap_const_nil, flatten_chunks batchSize_pos]

theorem statements_submissions (msg : MessageInternalMineSuccess) (rows : PayoutRows) :
    (statements msg rows).flatMap MineStmt.submissions = rows.submissions := by
  simp [flatMap_statements, MineStmt.submissions, flatMap_const_nil, flatten_chunks batchSize_pos]

theorem statements_pooled (msg : MessageInternalMineSuccess) (rows : PayoutRows) :
    ((statements msg rows).map MineStmt.pooled).sum = msg.rewards.toNat := by
  have h0 : ∀ l : List ((_ : Uuid) × InternalMessageSubmission), (l.flatMap fun _ => [0, 0]).sum = 0 := by
    intro l
    induction l with
    | nil => rfl
    | cons e l ih => simp [ih]
  simp [statements, MineStmt.pooled, List.map_flatMap, Function.comp_def, h0]

end BitzPool
