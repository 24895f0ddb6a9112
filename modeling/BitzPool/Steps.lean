import BitzPool.Claims
import BitzPool.Ledger
import BitzPool.PayoutTask

/-!
# What a step of each task can do

`PayoutStep`, `MineStep` and `ClaimStep` list the transitions of the three tasks that write to the ledger, with what
each does to the ledger, and `RequestStep` those of a claim request, with what each has checked.  `PayoutPc.step_sound`,
`MineTask.call_sound`, `RequestPc.step_sound` and `ClaimPc.step_sound` say that the tasks take no others.  Every
invariant of the treasury is proved by cases on these relations.
-/

namespace BitzPool

open Keyed Database

/-! ### Payout tasks -/

/-- A step of a payout task: one that leaves the ledger alone, the credit of the commission, or the send. -/
inductive PayoutStep (cfg : Config) (r : Round) (db : Database) :
    PayoutInput → PayoutPc → Database → PayoutPc → List MessageInternalMineSuccess → Prop
  | other {i : PayoutInput} {pc pc' : PayoutPc} {db' : Database} :
      db.SameLedger db' → (∀ full id, pc ≠ .send full id) → (∀ full id, pc' ≠ .send full id) → db'.txns = db.txns →
      PayoutStep cfg r db i pc db' pc' []
  | credit {o : CallOutcome} {full : UInt64} {id : RowId} {db' : Database} :
      updateRewards o (commissionBatch cfg full) db = (.ok (), db') →
      PayoutStep cfg r db (.call o) (.updateRewards full id) db' (.send full id) []
  | send {full : UInt64} {id : RowId} :
      PayoutStep cfg r db .send (.send full id) db .done [r.message full id]

private theorem readTransaction_ne_send (fmt : LogFormat) (a : TxAnswer) (full : UInt64) (id : RowId) :
    readTransaction fmt a ≠ .send full id := by
  unfold readTransaction
  split <;> (try split) <;> (try split) <;> (try split) <;> simp

theorem PayoutPc.step_sound {fmt : LogFormat} {cfg : Config} {r : Round} {db db' : Database} {i : PayoutInput}
    {pc pc' : PayoutPc} {msgs : List MessageInternalMineSuccess}
    (h : pc.step fmt cfg r db i = some (db', pc', msgs)) : PayoutStep cfg r db i pc db' pc' msgs := by
  unfold PayoutPc.step at h
  split at h
  · cases h
    exact .other (.refl db) (by simp) (readTransaction_ne_send fmt _) rfl
  · split at h <;> cases h <;> exact .other (.refl db) (by simp) (by simp) rfl
  · next o full =>
    have hl := addNewChallenge_sameLedger o ⟨cfg.poolId, r.challenge⟩ db
    have htxns := addNewChallenge_txns o ⟨cfg.poolId, r.challenge⟩ db
    split at h <;> next he => cases h; rw [he] at hl htxns; exact .other hl (by simp) (by simp) htxns
  · split at h <;> cases h <;> exact .other (.refl db) (by simp) (by simp) rfl
  · next o full id =>
    split at h
    · next he =>
      cases h
      exact .credit he
    · next he =>
      cases h
      rw [(updateRewards_error he).1]
      exact .other (.refl db) (by simp) (by simp) rfl
  · cases h
    exact .send
  · cases h

/-! ### `pool_mine_success_system` -/

/-- The statement writes nothing to the ledger. -/
def MineStmt.Idle (s : MineStmt) : Prop := s.earnings = [] ∧ s.credits = [] ∧ s.pooled = 0

theorem MineStmt.carry_of_idle {l : List MineStmt} (h : ∀ s ∈ l, s.Idle) :
    l.flatMap MineStmt.earnings = [] ∧ l.flatMap MineStmt.credits = [] ∧ (l.map MineStmt.pooled).sum = 0 := by
  refine ⟨List.flatMap_eq_nil_iff.2 fun s hs => (h s hs).1, List.flatMap_eq_nil_iff.2 fun s hs => (h s hs).2.1, ?_⟩
  refine List.sum_eq_zero fun n hn => ?_
  obtain ⟨s, hs, rfl⟩ := List.mem_map.1 hn
  exact (h s hs).2.2

/-- A database call of the mine task: it is repeated or panics, it leaves the ledger alone, or it does what its
statement says. -/
inductive MineStep (o : CallOutcome) (db : Database) : MineTask → Database → MineTask → Prop
  | stuck {s : MineStmt} {todo : List MineStmt} {dead : Bool} : MineStep o db ⟨s :: todo, false⟩ db ⟨s :: todo, dead⟩
  | other {s : MineStmt} {todo more : List MineStmt} {db' : Database} :
      db.SameLedger db' → s.Idle → (∀ s' ∈ more, s'.Idle) → db'.txns = db.txns →
      MineStep o db ⟨s :: todo, false⟩ db' ⟨more ++ todo, false⟩
  | earnings {batch : List InsertEarning} {todo : List MineStmt} :
      MineStep o db ⟨.addNewEarningsBatch batch :: todo, false⟩ { db with earnings := db.earnings ++ batch } ⟨todo, false⟩
  | credit {batch : List UpdateReward} {todo : List MineStmt} {db' : Database} :
      BitzPool.updateRewards o batch db = (.ok (), db') →
      MineStep o db ⟨.updateRewards batch :: todo, false⟩ db' ⟨todo, false⟩
  | pool {rewards : UInt64} {todo : List MineStmt} {n : ℕ} {db' : Database} :
      BitzPool.updatePoolRewards o rewards db = (.ok n, db') →
      MineStep o db ⟨.updatePoolRewards rewards :: todo, false⟩ db' ⟨todo, false⟩

private theorem unwrapping_sound {β : Type} {o : CallOutcome} {db db' : Database} {s : MineStmt}
    {todo : List MineStmt} {res : Except AppDatabaseError β} {t' : MineTask} (hs : s.Idle)
    (h : (match unwrapping res db with
      | (.next more, db') => some (db', (⟨more ++ todo, false⟩ : MineTask))
      | (.retry, db') => some (db', ⟨s :: todo, false⟩)
      | (.panic, db') => some (db', ⟨s :: todo, true⟩)) = some (db', t')) :
    MineStep o db ⟨s :: todo, false⟩ db' t' := by
  cases res with
  | ok b =>
    cases h
    exact .other (.refl db) hs (by simp) rfl
  | error e =>
    cases h
    exact .stuck

theorem MineTask.call_sound {o : CallOutcome} {db db' : Database} {t t' : MineTask}
    (h : t.call o db = some (db', t')) : MineStep o db t db' t' := by
  unfold MineTask.call at h
  split at h
  · next s todo =>
    cases s with
    | getMinerById id | getMinerRewardsById id => exact unwrapping_sound ⟨rfl, rfl, rfl⟩ h
    | addNewEarningsBatch batch =>
      rcases he : BitzPool.addNewEarningsBatch o batch db with ⟨e | ⟨⟩, db''⟩
      · simp only [MineStmt.exec, retrying, he] at h
        cases h
        rw [addNewEarningsBatch_error he]
        exact .stuck
      · simp only [MineStmt.exec, retrying, he] at h
        cases h
        rw [addNewEarningsBatch_ok he]
        exact .earnings
    | updateRewards batch =>
      rcases he : BitzPool.updateRewards o batch db with ⟨e | ⟨⟩, db''⟩
      · simp only [MineStmt.exec, retrying, he] at h
        cases h
        rw [(updateRewards_error he).1]
        exact .stuck
      · simp only [MineStmt.exec, retrying, he] at h
        cases h
        exact .credit he
    | addNewSubmissionsBatch batch =>
      have hl := addNewSubmissionsBatch_sameLedger o batch db
      have htxns := addNewSubmissionsBatch_txns o batch db
      rcases he : BitzPool.addNewSubmissionsBatch o batch db with ⟨e | ⟨⟩, db''⟩
      · simp only [MineStmt.exec, retrying, he] at h
        cases h
        rw [addNewSubmissionsBatch_error he]
        exact .stuck
      · simp only [MineStmt.exec, retrying, he] at h
        cases h
        rw [he] at hl htxns
        exact .other hl ⟨rfl, rfl, rfl⟩ (by simp) htxns
    | updatePoolRewards rewards =>
      rcases he : BitzPool.updatePoolRewards o rewards db with ⟨e | n, db''⟩
      · simp only [MineStmt.exec, retrying, he] at h
        cases h
        rw [interact_error he]
        exact .stuck
      · simp only [MineStmt.exec, retrying, he] at h
        cases h
        exact .pool he
    | getSubmissionIdWithNonce nonce challenge rewards =>
      rcases he : BitzPool.getSubmissionIdWithNonce o nonce db with e | id
      · simp only [MineStmt.exec, he] at h
        cases h
        exact .other (.refl db) ⟨rfl, rfl, rfl⟩ (by simp) rfl
      · simp only [MineStmt.exec, he] at h
        cases h
        refine .other (.refl db) ⟨rfl, rfl, rfl⟩ (fun s' hs' => ?_) rfl
        rw [List.mem_singleton.1 hs']
        exact ⟨rfl, rfl, rfl⟩
    | updateChallengeRewards challenge id rewards =>
      cases h
      exact .other (updateChallengeRewards_sameLedger o challenge id rewards db) ⟨rfl, rfl, rfl⟩ (by simp)
        (updateChallengeRewards_txns o challenge id rewards db)
  · cases h

/-! ### Claim requests -/

/-- A step of a request: it is refused, it passes one of its checks, or it inserts its item. -/
inductive RequestStep (db : Database) (queue : ClaimsQueue) (now : ℕ) :
    RequestInput → RequestPc → RequestPc → Option Insertion → Prop
  | refuse {i : RequestInput} {pc : RequestPc} {answer : Response} :
      (∀ ins answer, pc ≠ .insert ins answer) → answer.status ≠ 200 →
      RequestStep db queue now i pc (.answered answer) none
  | directRewards {o : CallOutcome} {pubkey : Pubkey} {rewards : Reward} :
      db.rewardOf pubkey = some rewards → ataFee ≤ rewards.balance →
      RequestStep db queue now (.call o) (.directRewards pubkey) (.directLastClaim pubkey rewards) none
  | directLastClaim {o : CallOutcome} {pubkey : Pubkey} {rewards : Reward} :
      (∀ createdAt, getLastClaim o rewards.minerId db = .ok createdAt → coolingDown now createdAt = false) →
      RequestStep db queue now (.call o) (.directLastClaim pubkey rewards) (.directTokenAccount pubkey rewards) none
  | directTokenAccount {a : TokenAnswer} {pubkey : Pubkey} {rewards : Reward} {amount : UInt64} :
      (a = .error ∧ ataFee ≤ rewards.balance ∧ amount = rewards.balance - ataFee ∨
        a ≠ .error ∧ amount = rewards.balance) →
      RequestStep db queue now (.tokenAccount a) (.directTokenAccount pubkey rewards)
        (.insert ⟨pubkey, pubkey, amount⟩ ⟨200, "Claim submitted"⟩) none
  | v2Queue {p : ClaimParamsV2} :
      p.minerPubkey ∉ queue → ataFee ≤ p.amount → RequestStep db queue now .readQueue (.v2Queue p) (.v2Rewards p) none
  | v2Rewards {o : CallOutcome} {p : ClaimParamsV2} {rewards : Reward} :
      db.rewardOf p.minerPubkey = some rewards → p.amount ≤ rewards.balance →
      RequestStep db queue now (.call o) (.v2Rewards p) (.v2LastClaim p rewards) none
  | v2LastClaim {o : CallOutcome} {p : ClaimParamsV2} {rewards : Reward} :
      (∀ createdAt, getLastClaim o rewards.minerId db = .ok createdAt → coolingDown now createdAt = false) →
      RequestStep db queue now (.call o) (.v2LastClaim p rewards) (.v2TokenAccount p) none
  | v2TokenAccount {a : TokenAnswer} {p : ClaimParamsV2} :
      (a ≠ .uiAmount → ataFee ≤ p.amount) →
      RequestStep db queue now (.tokenAccount a) (.v2TokenAccount p)
        (.insert ⟨p.minerPubkey, p.receiverPubkey, p.amount⟩ ⟨200, "SUCCESS"⟩) none
  | insert {ins : Insertion} {answer : Response} :
      RequestStep db queue now .insert (.insert ins answer) (.answered answer) (some ins)

theorem RequestPc.step_sound {db : Database} {queue : ClaimsQueue} {now : ℕ} {i : RequestInput} {pc pc' : RequestPc}
    {ins : Option Insertion} (h : pc.step db queue now i = some (pc', ins)) :
    RequestStep db queue now i pc pc' ins := by
  unfold RequestPc.step at h
  split at h
  · split at h
    · cases h
      exact .refuse (by simp) (by simp)
    · next he =>
      split at h <;> cases h
      · exact .refuse (by simp) (by simp)
      · next hle => exact .directRewards (query_ok he) (UInt64.not_lt.1 hle)
  · split at h
    · next he =>
      cases h
      exact .directLastClaim fun createdAt h' => by rw [he] at h'; cases h'
    · next createdAt he =>
      split at h <;> cases h
      · exact .refuse (by simp) (by simp)
      · next hcool =>
        refine .directLastClaim fun createdAt' h' => ?_
        rw [he] at h'
        cases h'
        exact Bool.eq_false_iff.2 hcool
  · split at h
    · next ha =>
      split at h <;> cases h
      · next hle => exact .directTokenAccount (Or.inl ⟨ha, hle, rfl⟩)
      · exact .refuse (by simp) (by simp)
    · next ha =>
      cases h
      exact .directTokenAccount (Or.inr ⟨ha, rfl⟩)
  · split at h
    · cases h
      exact .refuse (by simp) (by simp)
    · next hq =>
      split at h <;> cases h
      · exact .refuse (by simp) (by simp)
      · next hle => exact .v2Queue hq (UInt64.not_lt.1 hle)
  · split at h
    · cases h
      exact .refuse (by simp) (by simp)
    · next he =>
      split at h <;> cases h
      · exact .refuse (by simp) (by simp)
      · next hle => exact .v2Rewards (query_ok he) (UInt64.not_lt.1 hle)
  · split at h
    · next he =>
      cases h
      exact .v2LastClaim fun createdAt h' => by rw [he] at h'; cases h'
    · next createdAt he =>
      split at h <;> cases h
      · exact .refuse (by simp) (by simp)
      · next hcool =>
        refine .v2LastClaim fun createdAt' h' => ?_
        rw [he] at h'
        cases h'
        exact Bool.eq_false_iff.2 hcool
  · split at h <;> cases h
    · exact .refuse (by simp) (by simp)
    · next hfee => exact .v2TokenAccount fun ha => UInt64.not_lt.1 fun hlt => hfee ⟨ha, hlt⟩
  · cases h
    exact .insert
  · cases h

/-- Where the handler of a request can stand, with what it has checked so far: it goes on with the request's own data,
and what it inserts is for the miner of the request, with the receiver that miner named. -/
def RequestPc.Serves : ClaimRequest → RequestPc → Prop
  | .direct pubkey, .directRewards pubkey' => pubkey' = pubkey
  | .direct pubkey, .directLastClaim pubkey' rewards | .direct pubkey, .directTokenAccount pubkey' rewards =>
    pubkey' = pubkey ∧ ataFee ≤ rewards.balance
  | .direct pubkey, .insert ins _ => ins.minerPubkey = pubkey ∧ ins.receiverPubkey = pubkey
  | .v2 p, .v2Queue p' => p' = p
  | .v2 p, .v2Rewards p' | .v2 p, .v2LastClaim p' _ | .v2 p, .v2TokenAccount p' => p' = p ∧ ataFee ≤ p.amount
  | .v2 p, .insert ins _ => ins = ⟨p.minerPubkey, p.receiverPubkey, p.amount⟩
  | _, .answered _ => True
  | _, _ => False

/-- Where a request begins. -/
theorem ClaimRequest.arrive_cases (verify : Verify) (now : ℕ) (r : ClaimRequest) :
    (∃ pubkey, r = .direct pubkey ∧ r.arrive verify now = .directRewards pubkey) ∨
      (∃ p, r = .v2 p ∧ r.arrive verify now = .v2Queue p) ∨ ∃ answer, r.arrive verify now = .answered answer := by
  cases r with
  | direct pubkey => exact Or.inl ⟨pubkey, rfl, rfl⟩
  | v2 p =>
    simp only [arrive]
    split
    · exact Or.inr (Or.inr ⟨_, rfl⟩)
    · split
      · exact Or.inr (Or.inl ⟨p, rfl, rfl⟩)
      · exact Or.inr (Or.inr ⟨_, rfl⟩)

theorem ClaimRequest.arrive_serves (verify : Verify) (now : ℕ) (r : ClaimRequest) :
    (r.arrive verify now).Serves r := by
  rcases r.arrive_cases verify now with ⟨pubkey, rfl, -⟩ | ⟨p, rfl, he⟩ | ⟨answer, he⟩
  · rfl
  · rw [he]
    rfl
  · rw [he]
    cases r <;> trivial

theorem RequestStep.serves {db : Database} {queue : ClaimsQueue} {now : ℕ} {i : RequestInput} {pc pc' : RequestPc}
    {ins : Option Insertion} (h : RequestStep db queue now i pc pc' ins) {r : ClaimRequest} (hs : pc.Serves r) :
    pc'.Serves r := by
  cases r with
  | direct pubkey =>
    cases h with
    | directRewards _ hle => exact ⟨hs, hle⟩
    | directLastClaim => exact hs
    | directTokenAccount => exact ⟨hs.1, hs.1⟩
    | refuse | insert => trivial
    | _ => exact hs.elim
  | v2 p =>
    cases h with
    | v2Queue _ hle =>
      cases hs
      exact ⟨rfl, hle⟩
    | v2Rewards | v2LastClaim => exact hs
    | v2TokenAccount =>
      cases hs.1
      rfl
    | refuse | insert => trivial
    | _ => exact hs.elim

/-! ### `claim_system` -/

/-- What `claim_system` transfers for an item, and whether it creates the token account; `none` when the amount does
not cover that. -/
def priceOf (a : TokenAnswer) (amount : UInt64) : Option (Bool × UInt64) :=
  if a = .uiAmount then some (false, amount)
  else if ataFee ≤ amount then some (true, amount - ataFee)
  else none

/-- The transfer and the fee for a token account that is created make up the amount. -/
theorem priceOf_eq_some {a : TokenAnswer} {amount claimAmount : UInt64} {createsAta : Bool}
    (h : priceOf a amount = some (createsAta, claimAmount)) :
    (createsAta = true ↔ a ≠ .uiAmount) ∧
      claimAmount.toNat + (if createsAta then ataFee.toNat else 0) = amount.toNat := by
  unfold priceOf at h
  split at h
  · next ha =>
    cases h
    exact ⟨by simp [ha], by simp⟩
  · next ha =>
    split at h
    · next hle =>
      cases h
      refine ⟨by simp [ha], ?_⟩
      rw [UInt64.toNat_sub_of_le _ _ hle, if_pos rfl]
      exact Nat.sub_add_cancel (UInt64.le_iff_toNat_le.1 hle)
    · cases h

theorem le_of_priceOf {a : TokenAnswer} {amount claimAmount : UInt64} {createsAta : Bool}
    (h : priceOf a amount = some (createsAta, claimAmount)) : claimAmount ≤ amount := by
  have hsum := (priceOf_eq_some h).2
  exact UInt64.le_iff_toNat_le.2 (hsum ▸ Nat.le_add_right _ _)

theorem priceOf_eq_none {a : TokenAnswer} {amount : UInt64} :
    priceOf a amount = none ↔ a ≠ .uiAmount ∧ amount < ataFee := by
  unfold priceOf
  split
  · next ha => simp [ha]
  · next ha =>
    split
    · next hle => simp [ha, UInt64.not_lt.2 hle]
    · next hle => simp [ha, UInt64.not_le.1 hle]

/-- The steps of `claim_system`; `stay` are the retries and the polls without news. -/
inductive ClaimStep (now : ℕ) (m : ClaimMemory) : ClaimInput → ClaimPc → ClaimMemory → ClaimPc → Prop
  | stay {i : ClaimInput} {pc : ClaimPc} :
      (∀ miner item, pc ≠ .tokenAccount miner item) → (i = .status .pending ∨ ∃ o, i = .call o) →
      ClaimStep now m i pc m pc
  | pick {miner : Pubkey} {item : ClaimsQueueItem} :
      m.queue.lookup miner = some item → ClaimStep now m (.pick miner) .idle m (.tokenAccount miner item)
  | price {a : TokenAnswer} {miner : Pubkey} {item : ClaimsQueueItem} {createsAta : Bool} {claimAmount : UInt64} :
      priceOf a item.amount = some (createsAta, claimAmount) →
      ClaimStep now m (.tokenAccount a) (.tokenAccount miner item) m (.blockhash miner item createsAta claimAmount)
  | insufficient {a : TokenAnswer} {miner : Pubkey} {item : ClaimsQueueItem} :
      priceOf a item.amount = none →
      ClaimStep now m (.tokenAccount a) (.tokenAccount miner item) m (.drop miner item)
  | build {miner : Pubkey} {item : ClaimsQueueItem} {createsAta : Bool} {claimAmount : UInt64} :
      ClaimStep now m (.blockhash true) (.blockhash miner item createsAta claimAmount)
        { m with chain := m.chain.build } (.send ⟨m.chain.nextTx, miner, item, createsAta, claimAmount⟩ 0)
  | noBlockhash {miner : Pubkey} {item : ClaimsQueueItem} {createsAta : Bool} {claimAmount : UInt64} :
      ClaimStep now m (.blockhash false) (.blockhash miner item createsAta claimAmount) m (.drop miner item)
  | sent {tx : ClaimTx} {attempts : ℕ} :
      ClaimStep now m (.send true) (.send tx attempts) { m with chain := m.chain.send tx } (.poll tx)
  | resend {tx : ClaimTx} {attempts : ℕ} :
      ClaimStep now m (.send false) (.send tx attempts) { m with chain := m.chain.send tx }
        (.send tx (attempts + 1))
  | abandon {tx : ClaimTx} {attempts : ℕ} :
      maxSends ≤ attempts + 1 →
      ClaimStep now m (.send false) (.send tx attempts) { m with chain := m.chain.send tx } .idle
  | finalized {tx : ClaimTx} :
      ⟨tx, true⟩ ∈ m.chain.landed → ClaimStep now m (.status (.finalized true)) (.poll tx) m (.getMiner tx)
  | failed {tx : ClaimTx} :
      ⟨tx, false⟩ ∈ m.chain.landed → ClaimStep now m (.status (.finalized false)) (.poll tx) m .idle
  | expire {tx : ClaimTx} : ClaimStep now m .expire (.poll tx) m .idle
  | gotMiner {o : CallOutcome} {tx : ClaimTx} {miner : Miner} :
      m.db.miners.find? tx.minerPubkey = some miner →
      ClaimStep now m (.call o) (.getMiner tx) m (.getPool tx miner.id)
  | noMiner {o : CallOutcome} {tx : ClaimTx} {e : AppDatabaseError} :
      getMinerByPubkeyStr o tx.minerPubkey m.db = .error e → ClaimStep now m (.call o) (.getMiner tx) m (.dead tx)
  | gotPool {o : CallOutcome} {tx : ClaimTx} {minerId : MinerId} {pool : Pool} :
      m.db.pool = some pool →
      ClaimStep now m (.call o) (.getPool tx minerId) m (.decrease tx minerId pool.id)
  | noPool {o : CallOutcome} {tx : ClaimTx} {minerId : MinerId} {e : AppDatabaseError} :
      getPoolByAuthorityPubkey o m.db = .error e →
      ClaimStep now m (.call o) (.getPool tx minerId) m (.dead tx)
  | decrease {o : CallOutcome} {tx : ClaimTx} {minerId : MinerId} {poolId : RowId} {db' : Database} :
      decreaseQuery ⟨minerId, tx.item.amount⟩ m.db = some ((), db') →
      ClaimStep now m (.call o) (.decrease tx minerId poolId) { m with db := db' } (.poolClaimed tx minerId poolId)
  | poolClaimed {o : CallOutcome} {tx : ClaimTx} {minerId : MinerId} {poolId : RowId} {p p' : Pool} :
      m.db.pool = some p → p'.totalRewards = p.totalRewards →
      p'.claimedRewards.toNat = p.claimedRewards.toNat + tx.item.amount.toNat →
      ClaimStep now m (.call o) (.poolClaimed tx minerId poolId) { m with db := { m.db with pool := some p' } }
        (.addTxn tx minerId poolId)
  | addTxn {o : CallOutcome} {tx : ClaimTx} {minerId : MinerId} {poolId : RowId} {db' : Database} :
      m.db.SameLedger db' → db' = { m.db with txns := m.db.txns ++ [⟨"claim", tx.id, 0⟩] } →
      ClaimStep now m (.call o) (.addTxn tx minerId poolId) { m with db := db' } (.getTxn tx minerId poolId)
  | gotTxn {o : CallOutcome} {tx : ClaimTx} {minerId : MinerId} {poolId : RowId} {txnId : ℕ} :
      getTxnBySig o tx.id m.db = .ok txnId →
      ClaimStep now m (.call o) (.getTxn tx minerId poolId) m
        (.addClaim tx ⟨minerId, poolId, txnId, tx.item.amount⟩)
  | addClaim {o : CallOutcome} {tx : ClaimTx} {claim : InsertClaim} :
      ClaimStep now m (.call o) (.addClaim tx claim)
        { m with db := { m.db with claims := m.db.claims ++ [{ claim with createdAt := now }] } } (.remove tx)
  | remove {tx : ClaimTx} :
      ClaimStep now m .remove (.remove tx) { m with queue := m.queue.erase tx.minerPubkey } .idle
  | drop {miner : Pubkey} {item : ClaimsQueueItem} :
      ClaimStep now m .remove (.drop miner item) { m with queue := m.queue.erase miner } .idle

theorem ClaimPc.step_sound {now : ℕ} {m m' : ClaimMemory} {i : ClaimInput} {pc pc' : ClaimPc}
    (h : pc.step now m i = some (m', pc')) : ClaimStep now m i pc m' pc' := by
  unfold ClaimPc.step at h
  split at h
  · obtain ⟨item, hitem, he⟩ := Option.map_eq_some_iff.1 h
    cases he
    exact .pick hitem
  · next a miner item =>
    split at h
    · next ha =>
      cases h
      exact .price (if_pos ha)
    · next ha =>
      split at h <;> cases h
      · next hle => exact .price ((if_neg ha).trans (if_pos hle))
      · next hle => exact .insufficient ((if_neg ha).trans (if_neg hle))
  · next ok _ _ _ _ =>
    cases ok <;> cases h
    · exact .noBlockhash
    · exact .build
  · next ok tx attempts =>
    cases ok with
    | true =>
      cases h
      exact .sent
    | false =>
      simp only [Bool.false_eq_true, if_false] at h
      split at h
      · next hmax =>
        cases h
        exact .abandon hmax
      · cases h
        exact .resend
  · cases h
    exact .stay (by simp) (by simp)
  · next ok tx =>
    split at h
    · next hmem =>
      cases ok <;> cases h
      · exact .failed hmem
      · exact .finalized hmem
    · cases h
  · cases h
    exact .expire
  · split at h
    · next miner he =>
      cases h
      exact .gotMiner (query_ok he)
    · next he =>
      cases h
      exact .noMiner he
  · split at h
    · next pool he =>
      cases h
      exact .gotPool (query_ok he)
    · next he =>
      cases h
      exact .noPool he
  · split at h
    · next he =>
      cases h
      exact .decrease (interact_ok he).2
    · next he =>
      cases h
      rw [interact_error he]
      exact .stay (by simp) (by simp)
  · split at h
    · next he =>
      cases h
      obtain ⟨p, p', hp, h1, h2, rfl⟩ := updatePoolClaimed_ok he
      exact .poolClaimed hp h1 h2
    · next he =>
      cases h
      rw [updatePoolClaimed_error he]
      exact .stay (by simp) (by simp)
  · next o tx _ _ =>
    have hl := addNewTxn_sameLedger o ⟨"claim", tx.id, 0⟩ m.db
    split at h
    · next he =>
      cases h
      rw [he] at hl
      exact .addTxn hl (addNewTxn_ok he)
    · next he =>
      cases h
      rw [interact_error he]
      exact .stay (by simp) (by simp)
  · split at h <;> cases h
    · next he => exact .gotTxn he
    · exact .stay (by simp) (by simp)
  · split at h
    · next he =>
      cases h
      rw [addNewClaim_ok he]
      exact .addClaim
    · next he =>
      cases h
      rw [interact_error he]
      exact .stay (by simp) (by simp)
  · cases h
    exact .remove
  · cases h
    exact .drop
  · cases h

/-! ### What the steps leave of the ledger -/

theorem grows_of_payoutStep {cfg : Config} {r : Round} {db db' : Database} {i : PayoutInput} {pc pc' : PayoutPc}
    {msgs : List MessageInternalMineSuccess} (h : PayoutStep cfg r db i pc db' pc' msgs) : db.Grows db' := by
  cases h with
  | other hl _ _ => exact hl.grows
  | credit h => exact grows_of_updateRewards h
  | send => exact .refl _

theorem grows_of_mineStep {o : CallOutcome} {db db' : Database} {t t' : MineTask} (h : MineStep o db t db' t') :
    db.Grows db' := by
  cases h with
  | stuck => exact .refl _
  | other hl _ _ => exact hl.grows
  | earnings => exact .of_eq rfl rfl rfl rfl
  | credit h => exact grows_of_updateRewards h
  | pool h =>
    rcases updatePoolRewards_ok h with ⟨-, rfl⟩ | ⟨p, p', -, -, -, rfl⟩
    · exact .refl _
    · exact .of_eq rfl rfl rfl rfl

theorem extends_of_claimStep {now : ℕ} {m m' : ClaimMemory} {i : ClaimInput} {pc pc' : ClaimPc}
    (h : ClaimStep now m i pc m' pc') : m.db.Extends m'.db := by
  cases h with
  | decrease hq => exact extends_of_decrease hq
  | poolClaimed _ _ _ => exact .of_eq rfl rfl
  | addTxn hl => exact hl.extends
  | addClaim => exact .of_eq rfl rfl
  | _ => exact .refl _

theorem grows_of_claimStep {now : ℕ} {m m' : ClaimMemory} {i : ClaimInput} {pc pc' : ClaimPc}
    (h : ClaimStep now m i pc m' pc') (hpc : ∀ tx id poolId, pc ≠ .decrease tx id poolId) : m.db.Grows m'.db := by
  cases h with
  | decrease => exact absurd rfl (hpc _ _ _)
  | poolClaimed | addClaim => exact .of_eq rfl rfl rfl rfl
  | addTxn hl => exact hl.grows
  | _ => exact .refl _

end BitzPool
