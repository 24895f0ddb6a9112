import BitzPool.Claims
import BitzPool.PayoutTask
import BitzPool.Lib.Run

/-!
# The tasks that move rewards

Claim requests, `claim_system`, the payout tasks of mined rounds, `pool_mine_success_system` and sign-ups, working
on one database, one claims queue and one channel of mined rewards.  An action is one atomic step of one of them, so
a list of actions is an interleaving.  What the mining side contributes is free: any round may be finalised at any
time, and any connections may be live when its message is processed.

`tickets` counts the insertions into the queue; `commissions` is a history of the commissions the payout tasks
credited.
-/

namespace BitzPool

/-- The configuration of the server and the parts of its dependencies that the tasks use. -/
structure Setup where
  config : Config
  fmt : LogFormat
  verify : Verify

structure Treasury where
  now : ℕ
  db : Database
  queue : ClaimsQueue
  tickets : ℕ
  chain : Chain
  requests : List RequestPc
  claim : ClaimPc
  payouts : List (Round × PayoutPc)
  channel : List MessageInternalMineSuccess
  mine : MineTask
  commissions : List UpdateReward

namespace Treasury

inductive Action
  | tick
  | request (r : ClaimRequest)
  | requestStep (i : ℕ) (input : RequestInput)
  | claimStep (input : ClaimInput)
  | land (tx : ClaimTx) (ok : Bool)
  | mined (r : Round)
  | payoutStep (i : ℕ) (input : PayoutInput)
  | receive (socks : Sockets)
  | mineCall (o : CallOutcome)
  | signup (o : CallOutcome) (id : MinerId) (pubkey : Pubkey)

/-- Put an insertion into the queue; an item under the same key is overwritten. -/
def insertClaim (s : Treasury) (ins : Option Insertion) : Treasury :=
  match ins with
  | none => s
  | some ins => { s with
    queue := s.queue.insert ins.minerPubkey ⟨ins.receiverPubkey, ins.amount, s.tickets⟩
    tickets := s.tickets + 1 }

/-- The commission a step of a payout task credits, as far as the task can tell. -/
def commissionCredited (cfg : Config) : PayoutPc → PayoutPc → List UpdateReward
  | .updateRewards full _, .send _ _ => commissionBatch cfg full
  | _, _ => []

def stepRequest (s : Treasury) (i : ℕ) (input : RequestInput) : Option Treasury := do
  let pc ← s.requests[i]?
  let (pc', ins) ← pc.step s.db s.queue s.now input
  return { s with requests := s.requests.set i pc' }.insertClaim ins

def stepClaim (s : Treasury) (input : ClaimInput) : Option Treasury := do
  let (m, pc) ← s.claim.step s.now ⟨s.db, s.queue, s.chain⟩ input
  return { s with db := m.db, queue := m.queue, chain := m.chain, claim := pc }

def stepPayout (su : Setup) (s : Treasury) (i : ℕ) (input : PayoutInput) : Option Treasury := do
  let p ← s.payouts[i]?
  let (db, pc, msgs) ← p.2.step su.fmt su.config p.1 s.db input
  return { s with
    db := db
    payouts := s.payouts.set i (p.1, pc)
    channel := s.channel ++ msgs
    commissions := commissionCredited su.config p.2 pc ++ s.commissions }

def stepReceive (su : Setup) (s : Treasury) (socks : Sockets) : Option Treasury :=
  match s.channel with
  | [] => none
  | msg :: channel => (s.mine.receive su.config.poolId msg socks).map fun t => { s with channel := channel, mine := t }

def step (su : Setup) (s : Treasury) : Action → Option Treasury
  | .tick => some { s with now := s.now + 1 }
  | .request r => some { s with requests := s.requests ++ [r.arrive su.verify s.now] }
  | .requestStep i input => s.stepRequest i input
  | .claimStep input => s.stepClaim input
  | .land tx ok => (s.chain.land? tx ok).map fun c => { s with chain := c }
  | .mined r => some { s with payouts := s.payouts ++ [(r, .getTransaction)] }
  | .payoutStep i input => s.stepPayout su i input
  | .receive socks => s.stepReceive su socks
  | .mineCall o => (s.mine.call o s.db).map fun (db, t) => { s with db := db, mine := t }
  | .signup o id pubkey => some { s with db := (signupUserTransaction o id pubkey s.db).2 }

/-- The server when it starts. -/
def start (db : Database) : Treasury where
  now := 0
  db := db
  queue := ∅
  tickets := 0
  chain := ∅
  requests := []
  claim := .idle
  payouts := []
  channel := []
  mine := ⟨[], false⟩
  commissions := []

/-- A server that has just started: no tasks, an empty queue, nothing sent. -/
structure Fresh (s : Treasury) : Prop where
  queue : s.queue = ∅
  chain : s.chain = ∅
  requests : s.requests = []
  claim : s.claim = .idle
  payouts : s.payouts = []
  channel : s.channel = []
  mine : s.mine = ⟨[], false⟩

/-- A ledger without entries. -/
structure EmptyLedger (db : Database) : Prop where
  pool : ∃ p, db.pool = some p ∧ p.totalRewards = 0 ∧ p.claimedRewards = 0
  rewards : ∀ r ∈ db.rewards.rows, r.balance = 0
  earnings : db.earnings = []
  claims : db.claims = []

/-- No payout and no claim is in progress. -/
structure Quiet (s : Treasury) : Prop where
  payouts : ∀ p ∈ s.payouts, p.2 = .done ∨ p.2 = .dead
  channel : s.channel = []
  mine : s.mine = ⟨[], false⟩
  claim : s.claim = .idle

theorem start_fresh (db : Database) : (start db).Fresh := ⟨rfl, rfl, rfl, rfl, rfl, rfl, rfl⟩

end Treasury

/-- The return data of a reward of 1000 units, and its base64, for examples. -/
def exampleEvent : List UInt8 := List.replicate 40 0 ++ [232, 3] ++ List.replicate 22 0

def exampleLog : List Char := List.replicate 53 'A' ++ "OgD".toList ++ List.replicate 30 'A' ++ "==".toList

/-- A setup for examples: miner 1 gets the commissions, and one log line is readable. -/
def exampleSetup : Setup where
  config := ⟨1, 1⟩
  fmt := ⟨"Program return: eore ".toList, fun line => if line = exampleLog then some exampleEvent else none⟩
  verify := fun _ _ _ => true

namespace Treasury

/-- A round of one miner, from its transaction to the last statement of its payout. -/
def oneRound : List Action :=
  [.mined exampleRound,
    .payoutStep 0 (.answer (.ok (some (.some ["Program return: eore ".toList ++ exampleLog]))))] ++
  List.replicate 4 (.payoutStep 0 (.call .executed)) ++
  [.payoutStep 0 .send, .receive (AList.singleton (.v4 0 1) ⟨1, filled 7, 1, "rig"⟩)] ++
  List.replicate 8 (.mineCall .executed)

end Treasury

end BitzPool
