import BitzPool.MineSuccess

/-!
# The payout task of a mined round

When a mine transaction is finalised, `pool_submission_system` spawns a task that fetches the transaction, reads the
reward from the return data in its log, makes sure the challenge has a row, credits the commission, and sends the
round's submissions with the reward to `pool_mine_success_system`.  `Round` is what the task captured from the main
loop, `PayoutPc` where it stands; `PayoutPc.step` is one call of the RPC node or the database, or the final send.

The task is lost (`dead`) where the source unwraps: absent metadata, return data that is not base64, a reward past
`u64`.  Return data of the wrong size ends it (`done`) without a message.
-/

namespace BitzPool

/-- What the server uses of `Config`. -/
structure Config where
  poolId : RowId
  commissionsMinerId : MinerId
  deriving DecidableEq

/-! ### The reward in the transaction's log -/

/-- The prefix of a log line with the return data of the eore program, and the base64 decoder. -/
structure LogFormat where
  returnPrefix : List Char
  decode : List Char → Option (List UInt8)

/-- `MineEventWithGlobalBoosts`, as far as the server reads it. -/
structure MineEvent where
  netBaseReward : UInt64
  netMinerBoostReward : UInt64
  deriving DecidableEq

/-- `bytemuck::try_from_bytes`: eight words of eight bytes. -/
def MineEvent.tryFromBytes (bytes : List UInt8) : Option MineEvent :=
  if bytes.length = 64 then
    some ⟨fromLeBytes ((bytes.drop 40).take 8), fromLeBytes ((bytes.drop 48).take 8)⟩
  else none

/-- `str::trim_start_matches`; `l.length` rounds are enough. -/
def trimStartMatches (pre : List Char) (l : List Char) : List Char :=
  go l.length l
where
  go : ℕ → List Char → List Char
    | 0, l => l
    | n + 1, l => if pre.isPrefixOf l then go n (l.drop pre.length) else l

/-- The return data of the last log line that has some, or the empty string. -/
def LogFormat.mineEventStr (fmt : LogFormat) (logs : List (List Char)) : List Char :=
  match logs.reverse.find? fun line => fmt.returnPrefix.isPrefixOf line with
  | some line => trimStartMatches fmt.returnPrefix line
  | none => []

/-- `OptionSerializer` around the log lines. -/
inductive LogMessages
  | some (logs : List (List Char))
  | none
  | skip
  deriving DecidableEq

/-- An answer of `get_transaction_with_config`: an error, or a transaction with or without `meta`. -/
inductive TxAnswer
  | error
  | ok (metadata : Option LogMessages)
  deriving DecidableEq

/-! ### The message -/

/-- What the task captured: the signature of the transaction, the challenge it was mined for, the snapshot of the
submissions and the best solution with its difficulty. -/
structure Round where
  sig : ℕ
  challenge : Challenge
  submissions : Submissions
  bestSolution : Solution
  difficulty : UInt32
  deriving DecidableEq

/-- `total_hashpower` and `total_real_hashpower`. -/
def hashpowerTotals (submissions : Submissions) : UInt64 × UInt64 :=
  submissions.entries.foldl (fun t e => (t.1 + e.2.hashpower, t.2 + e.2.realHashpower)) (0, 0)

/-- `full_rewards.mul(5).saturating_div(100)`. -/
def commissionOf (fullRewards : UInt64) : UInt64 := fullRewards * 5 / 100

def Round.message (r : Round) (fullRewards : UInt64) (challengeId : RowId) : MessageInternalMineSuccess where
  difficulty := r.difficulty
  rewards := fullRewards
  commissions := commissionOf fullRewards
  challengeId := challengeId
  challenge := r.challenge
  bestNonce := r.bestSolution.nonce
  totalHashpower := (hashpowerTotals r.submissions).1
  totalRealHashpower := (hashpowerTotals r.submissions).2
  submissions := r.submissions

/-! ### The task -/

inductive PayoutPc
  | getTransaction
  | getChallenge (fullRewards : UInt64)
  | addChallenge (fullRewards : UInt64)
  | verifyChallenge (fullRewards : UInt64)
  | updateRewards (fullRewards : UInt64) (challengeId : RowId)
  | send (fullRewards : UInt64) (challengeId : RowId)
  | done
  | dead
  deriving DecidableEq

/-- What decides a step of the task: an answer of the RPC node or the outcome of a database call. -/
inductive PayoutInput
  | answer (a : TxAnswer)
  | call (o : CallOutcome)
  | send
  deriving DecidableEq

/-- What an answer makes of the task. -/
def readTransaction (fmt : LogFormat) : TxAnswer → PayoutPc
  | .error => .getTransaction
  | .ok none => .dead
  | .ok (some .none) => .getTransaction
  | .ok (some .skip) => .getTransaction
  | .ok (some (.some logs)) =>
    match fmt.decode (fmt.mineEventStr logs) with
    | none => .dead
    | some bytes =>
      match MineEvent.tryFromBytes bytes with
      | none => .done
      | some event =>
        match checkedAdd event.netBaseReward event.netMinerBoostReward with
        | none => .dead
        | some fullRewards => .getChallenge fullRewards

def commissionBatch (cfg : Config) (fullRewards : UInt64) : List UpdateReward :=
  [⟨cfg.commissionsMinerId, commissionOf fullRewards⟩]

/-- A step of the task: the database, the task and the messages it sends. -/
def PayoutPc.step (fmt : LogFormat) (cfg : Config) (r : Round) (db : Database) :
    PayoutInput → PayoutPc → Option (Database × PayoutPc × List MessageInternalMineSuccess)
  | .answer a, .getTransaction => some (db, readTransaction fmt a, [])
  | .call o, .getChallenge full =>
    match getChallengeByChallenge o r.challenge db with
    | .ok c => some (db, .updateRewards full c.id, [])
    | .error _ => some (db, .addChallenge full, [])
  | .call o, .addChallenge full =>
    match addNewChallenge o ⟨cfg.poolId, r.challenge⟩ db with
    | (.ok _, db') => some (db', .getChallenge full, [])
    | (.error _, db') => some (db', .verifyChallenge full, [])
  | .call o, .verifyChallenge full =>
    match getChallengeByChallenge o r.challenge db with
    | .ok _ => some (db, .getChallenge full, [])
    | .error _ => some (db, .addChallenge full, [])
  | .call o, .updateRewards full id =>
    match BitzPool.updateRewards o (commissionBatch cfg full) db with
    | (.ok _, db') => some (db', .send full id, [])
    | (.error _, db') => some (db', .updateRewards full id, [])
  | .send, .send full id => some (db, .done, [r.message full id])
  | _, _ => none

/-- A submission of difficulty 12, for examples. -/
def exampleSubmission (minerId : MinerId) : InternalMessageSubmission where
  minerId := minerId
  suppliedDiff := 12
  suppliedNonce := 0
  hashpower := 80
  realHashpower := 80
  capped := by decide

/-- A round with one submission, by miner 1, for examples. -/
def exampleRound : Round where
  sig := 0
  challenge := filled 0
  submissions := AList.singleton 1 (exampleSubmission 1)
  bestSolution := ⟨List.Vector.replicate 16 0, List.Vector.replicate 8 0⟩
  difficulty := 12

end BitzPool
