import BitzPool.Database
import BitzPool.Lib.Broadcast

/-!
# Claim requests and `claim_system`

`post_claim_v2` and `claim_direct` check a request against the queue, the miner's balance and the time of the last
claim, and put an item into `claims_queue`; `claim_system` takes items out one at a time, sends a transaction for
each, waits for it to be finalised, and books it.  Every lock section, database call and RPC call is a step of its
own: `RequestPc.step` for a request, `ClaimPc.step` for `claim_system`.

The clock is in seconds.  Answers of the RPC node are inputs; what becomes of a transaction is kept by `Chain`, and a
status answer can only report what happened.
-/

namespace BitzPool

/-! ### Requests -/

structure Response where
  status : ℕ
  body : String
  deriving DecidableEq

/-- A parsed `post_claim_v2` request: the credentials and the query parameters. -/
structure ClaimParamsV2 where
  minerPubkey : Pubkey
  signature : AuthSignature
  timestamp : UInt64
  receiverPubkey : Pubkey
  amount : UInt64
  deriving DecidableEq

inductive ClaimRequest
  | direct (pubkey : Pubkey)
  | v2 (params : ClaimParamsV2)
  deriving DecidableEq

/-- `u64::to_le_bytes`. -/
def toLeBytes (n : UInt64) : List UInt8 := (List.range 8).map fun i => UInt8.ofNat (n.toNat / 256 ^ i)

def ClaimParamsV2.signedMsg (p : ClaimParamsV2) : List UInt8 :=
  toLeBytes p.timestamp ++ p.receiverPubkey.toList ++ toLeBytes p.amount

/-- An answer of `get_token_account_balance`: an error, or a balance with or without `ui_amount`. -/
inductive TokenAnswer
  | error
  | noUiAmount
  | uiAmount
  deriving DecidableEq

/-- What a request puts into the queue. -/
structure Insertion where
  minerPubkey : Pubkey
  receiverPubkey : Pubkey
  amount : UInt64
  deriving DecidableEq

inductive RequestPc
  | directRewards (pubkey : Pubkey)
  | directLastClaim (pubkey : Pubkey) (rewards : Reward)
  | directTokenAccount (pubkey : Pubkey) (rewards : Reward)
  | v2Queue (params : ClaimParamsV2)
  | v2Rewards (params : ClaimParamsV2)
  | v2LastClaim (params : ClaimParamsV2) (rewards : Reward)
  | v2TokenAccount (params : ClaimParamsV2)
  | insert (ins : Insertion) (answer : Response)
  | answered (answer : Response)
  deriving DecidableEq

/-- `Signature::verify`, of the solana crate. -/
abbrev Verify := AuthSignature → Pubkey → List UInt8 → Bool

/-- A request arrives: the parts of the handlers before their first `await`. -/
def ClaimRequest.arrive (verify : Verify) (now : ℕ) : ClaimRequest → RequestPc
  | .direct pubkey => .directRewards pubkey
  | .v2 p =>
    if 30 ≤ UInt64.ofNat now - p.timestamp then .answered ⟨401, "Timestamp too old."⟩
    else if verify p.signature p.minerPubkey p.signedMsg then .v2Queue p
    else .answered ⟨401, "Sig verification failed"⟩

/-- The cooldown of half an hour since a claim was booked at `createdAt`. -/
def coolingDown (now createdAt : ℕ) : Bool := (now : ℤ) - createdAt ≤ 1800

inductive RequestInput
  | readQueue
  | call (o : CallOutcome)
  | tokenAccount (a : TokenAnswer)
  | insert
  deriving DecidableEq

/-- A step of a request: where it goes and what it inserts. -/
def RequestPc.step (db : Database) (queue : ClaimsQueue) (now : ℕ) :
    RequestInput → RequestPc → Option (RequestPc × Option Insertion)
  | .call o, .directRewards pubkey =>
    match getMinerRewards o pubkey db with
    | .error _ => some (.answered ⟨404, "Miner not found"⟩, none)
    | .ok rewards =>
      if rewards.balance < ataFee then some (.answered ⟨400, "Minimum claim is 0.05 BITZ"⟩, none)
      else some (.directLastClaim pubkey rewards, none)
  | .call o, .directLastClaim pubkey rewards =>
    match getLastClaim o rewards.minerId db with
    | .error _ => some (.directTokenAccount pubkey rewards, none)
    | .ok createdAt =>
      if coolingDown now createdAt then some (.answered ⟨429, "Cooldown not finished"⟩, none)
      else some (.directTokenAccount pubkey rewards, none)
  | .tokenAccount a, .directTokenAccount pubkey rewards =>
    if a = .error then
      if ataFee ≤ rewards.balance then
        some (.insert ⟨pubkey, pubkey, rewards.balance - ataFee⟩ ⟨200, "Claim submitted"⟩, none)
      else some (.answered ⟨400, "Not enough BITZ to cover ATA creation"⟩, none)
    else some (.insert ⟨pubkey, pubkey, rewards.balance⟩ ⟨200, "Claim submitted"⟩, none)
  | .readQueue, .v2Queue p =>
    if p.minerPubkey ∈ queue then some (.answered ⟨429, "QUEUED"⟩, none)
    else if p.amount < ataFee then some (.answered ⟨400, "claim minimum is 0.05 BITZ"⟩, none)
    else some (.v2Rewards p, none)
  | .call o, .v2Rewards p =>
    match getMinerRewards o p.minerPubkey db with
    | .error _ => some (.answered ⟨500, "failed to get miner account from database"⟩, none)
    | .ok rewards =>
      if rewards.balance < p.amount then
        some (.answered ⟨400, "claim amount for BITZ exceeds miner rewards balance."⟩, none)
      else some (.v2LastClaim p rewards, none)
  | .call o, .v2LastClaim p rewards =>
    match getLastClaim o rewards.minerId db with
    | .error _ => some (.v2TokenAccount p, none)
    | .ok createdAt =>
      if coolingDown now createdAt then
        some (.answered ⟨429, toString ((now : ℤ) - createdAt)⟩, none)
      else some (.v2TokenAccount p, none)
  | .tokenAccount a, .v2TokenAccount p =>
    -- the fee is only checked here: the item keeps the full amount
    if a ≠ .uiAmount ∧ p.amount < ataFee then
      some (.answered ⟨400, "Not enough BITZ to cover for token account generation. Each new token account requires 0.02 BITZ"⟩,
        none)
    else some (.insert ⟨p.minerPubkey, p.receiverPubkey, p.amount⟩ ⟨200, "SUCCESS"⟩, none)
  | .insert, .insert ins answer => some (.answered answer, some ins)
  | _, _ => none

/-! ### The chain -/

/-- A claim transaction: who claims what, and the amount it transfers, 0 for no transfer. -/
structure ClaimTx where
  id : ℕ
  minerPubkey : Pubkey
  item : ClaimsQueueItem
  createsAta : Bool
  claimAmount : UInt64
  deriving DecidableEq

abbrev Landed := Broadcast.Landed ClaimTx

abbrev Chain := Broadcast.Chain ClaimTx.id

/-! ### `claim_system` -/

inductive ClaimPc
  | idle
  | tokenAccount (minerPubkey : Pubkey) (item : ClaimsQueueItem)
  | blockhash (minerPubkey : Pubkey) (item : ClaimsQueueItem) (createsAta : Bool) (claimAmount : UInt64)
  | send (tx : ClaimTx) (attempts : ℕ)
  | poll (tx : ClaimTx)
  | getMiner (tx : ClaimTx)
  | getPool (tx : ClaimTx) (minerId : MinerId)
  | decrease (tx : ClaimTx) (minerId : MinerId) (poolId : RowId)
  | poolClaimed (tx : ClaimTx) (minerId : MinerId) (poolId : RowId)
  | addTxn (tx : ClaimTx) (minerId : MinerId) (poolId : RowId)
  | getTxn (tx : ClaimTx) (minerId : MinerId) (poolId : RowId)
  | addClaim (tx : ClaimTx) (claim : InsertClaim)
  | remove (tx : ClaimTx)
  -- the removals of an item that was not paid
  | drop (minerPubkey : Pubkey) (item : ClaimsQueueItem)
  -- an `unwrap` failed before the transaction was booked
  | dead (tx : ClaimTx)
  deriving DecidableEq

/-- An answer of `get_signature_statuses` for one signature; `pending` covers errors and missing statuses. -/
inductive StatusAnswer
  | pending
  | finalized (ok : Bool)
  deriving DecidableEq

inductive ClaimInput
  /-- the next item of the queue's iteration -/
  | pick (minerPubkey : Pubkey)
  | tokenAccount (a : TokenAnswer)
  | blockhash (ok : Bool)
  | send (ok : Bool)
  | status (a : StatusAnswer)
  /-- 120 seconds have passed -/
  | expire
  | call (o : CallOutcome)
  | remove
  deriving DecidableEq

/-- What `claim_system` changes. -/
structure ClaimMemory where
  db : Database
  queue : ClaimsQueue
  chain : Chain

/-- The sends a transaction gets before `claim_system` gives it up. -/
def maxSends : ℕ := 5

def ClaimPc.step (now : ℕ) (m : ClaimMemory) : ClaimInput → ClaimPc → Option (ClaimMemory × ClaimPc)
  | .pick miner, .idle => (m.queue.lookup miner).map fun item => (m, .tokenAccount miner item)
  | .tokenAccount a, .tokenAccount miner item =>
    if a = .uiAmount then some (m, .blockhash miner item false item.amount)
    else if ataFee ≤ item.amount then some (m, .blockhash miner item true (item.amount - ataFee))
    else some (m, .drop miner item)
  | .blockhash ok, .blockhash miner item createsAta claimAmount =>
    if ok then
      some ({ m with chain := m.chain.build },
        .send ⟨m.chain.nextTx, miner, item, createsAta, claimAmount⟩ 0)
    else some (m, .drop miner item)
  | .send ok, .send tx attempts =>
    -- whatever the answer, the transaction may have been broadcast
    let m' := { m with chain := m.chain.send tx }
    if ok then some (m', .poll tx)
    else if maxSends ≤ attempts + 1 then some (m', .idle)
    else some (m', .send tx (attempts + 1))
  | .status .pending, .poll tx => some (m, .poll tx)
  | .status (.finalized ok), .poll tx =>
    if ⟨tx, ok⟩ ∈ m.chain.landed then some (m, if ok then .getMiner tx else .idle) else none
  | .expire, .poll _ => some (m, .idle)
  | .call o, .getMiner tx =>
    match getMinerByPubkeyStr o tx.minerPubkey m.db with
    | .ok miner => some (m, .getPool tx miner.id)
    | .error _ => some (m, .dead tx)
  | .call o, .getPool tx minerId =>
    match getPoolByAuthorityPubkey o m.db with
    | .ok pool => some (m, .decrease tx minerId pool.id)
    | .error _ => some (m, .dead tx)
  | .call o, .decrease tx minerId poolId =>
    match decreaseMinerReward o ⟨minerId, tx.item.amount⟩ m.db with
    | (.ok _, db) => some ({ m with db := db }, .poolClaimed tx minerId poolId)
    | (.error _, db) => some ({ m with db := db }, .decrease tx minerId poolId)
  | .call o, .poolClaimed tx minerId poolId =>
    match updatePoolClaimed o tx.item.amount m.db with
    | (.ok _, db) => some ({ m with db := db }, .addTxn tx minerId poolId)
    | (.error _, db) => some ({ m with db := db }, .poolClaimed tx minerId poolId)
  | .call o, .addTxn tx minerId poolId =>
    match addNewTxn o ⟨"claim", tx.id, 0⟩ m.db with
    | (.ok _, db) => some ({ m with db := db }, .getTxn tx minerId poolId)
    | (.error _, db) => some ({ m with db := db }, .addTxn tx minerId poolId)
  | .call o, .getTxn tx minerId poolId =>
    match getTxnBySig o tx.id m.db with
    | .ok txnId => some (m, .addClaim tx ⟨minerId, poolId, txnId, tx.item.amount⟩)
    | .error _ => some (m, .getTxn tx minerId poolId)
  | .call o, .addClaim tx claim =>
    match addNewClaim o now claim m.db with
    | (.ok _, db) => some ({ m with db := db }, .remove tx)
    | (.error _, db) => some ({ m with db := db }, .addClaim tx claim)
  | .remove, .remove tx => some ({ m with queue := m.queue.erase tx.minerPubkey }, .idle)
  | .remove, .drop miner _ => some ({ m with queue := m.queue.erase miner }, .idle)
  | _, _ => none

end BitzPool
