import BitzPool.Reconcile
import BitzPool.Solvency
import Mathlib.Data.Prod.Lex

/-!
# Database errors during a payout

`Receiver` is `pool_mine_success_system` on its own: it receives messages and makes their database calls, each with an
outcome of its own.  The batch writes are repeated until they succeed; the two lookups of a miner are unwrapped, and an
error of one of them ends the task with everything that was still to be paid.

* (safety) as long as no unwrapped lookup fails, no divisor is zero and no credit is lost inside `update_rewards`, what
  was applied and what is still to come make up the rows of the messages received (`Booked`);
* (progress) the task is never stuck before everything is applied, and a run can only go on for ever by repeating one
  failing call.
-/

namespace BitzPool

open Keyed Split Database Transition

/-! ### The receiver loop -/

/-- The task with its database and the messages it has not received yet. -/
structure Receiver where
  db : Database
  mine : MineTask
  channel : List MessageInternalMineSuccess

inductive ReceiverEvent
  | receive (socks : Sockets)
  | call (o : CallOutcome)
  deriving DecidableEq

/-- Messages received, each with the rows computed for it. -/
abbrev Receipts := List (MessageInternalMineSuccess × PayoutRows)

/-- What an observer notes: every message received with its rows, and every challenge whose row was updated. -/
structure PayoutRecord where
  received : Receipts
  challenges : List Challenge

namespace Receiver

def step (poolId : RowId) (s : Receiver) : ReceiverEvent → Option Receiver
  | .receive socks =>
    match s.channel with
    | [] => none
    | msg :: channel => (s.mine.receive poolId msg socks).map fun mine => { s with mine := mine, channel := channel }
  | .call o => (s.mine.call o s.db).map fun x => { s with db := x.1, mine := x.2 }

def watch (poolId : RowId) (s : Receiver) : ReceiverEvent → PayoutRecord → PayoutRecord
  | .receive socks, r =>
    match s.channel with
    | [] => r
    | msg :: _ => { r with received := r.received ++ ((payoutRows poolId msg socks).map fun rows => (msg, rows)).toList }
  | .call o, r =>
    match s.mine.todo with
    | .updateChallengeRewards c id rewards :: _ =>
      match (updateChallengeRewards o c id rewards s.db).1 with
      | .ok _ => { r with challenges := r.challenges ++ [c] }
      | .error _ => r
    | _ => r

/-- Every message is received and all its calls are made. -/
def Consumed (s : Receiver) : Prop := s.channel = [] ∧ s.mine.todo = []

end Receiver

/-! ### Calls that lose nothing -/

instance (batch : List UpdateReward) (db : Database) : Decidable (CreditsNothing batch db) :=
  decidable_of_iff (∀ r ∈ db.rewards.rows, batchSum batch r.minerId = 0)
    ⟨fun h id hid => by
      obtain ⟨r, hr⟩ := Table.has_iff.1 hid
      obtain ⟨hmem, rfl⟩ := Table.find?_eq_some.1 hr
      exact h r hmem,
    fun h r hr => h _ (List.mem_map_of_mem hr)⟩

/-- An unwrapped lookup succeeds, and a credit is not lost inside `update_rewards`. -/
def MineStmt.Spared (o : CallOutcome) (db : Database) : MineStmt → Prop
  | .getMinerById id => (BitzPool.getMinerById o id db).isOk = true
  | .getMinerRewardsById id => (BitzPool.getMinerRewardsById o id db).isOk = true
  | .updateRewards batch => SqlFails o batch db → CreditsNothing batch db
  | _ => True

/-- The call returns `Ok`. -/
def MineStmt.isOk (o : CallOutcome) (db : Database) : MineStmt → Bool
  | .getMinerById id => (BitzPool.getMinerById o id db).isOk
  | .getMinerRewardsById id => (BitzPool.getMinerRewardsById o id db).isOk
  | .addNewEarningsBatch batch => (BitzPool.addNewEarningsBatch o batch db).1.isOk
  | .updateRewards batch => (BitzPool.updateRewards o batch db).1.isOk
  | .addNewSubmissionsBatch batch => (BitzPool.addNewSubmissionsBatch o batch db).1.isOk
  | .updatePoolRewards rewards => (BitzPool.updatePoolRewards o rewards db).1.isOk
  | .getSubmissionIdWithNonce nonce _ _ => (BitzPool.getSubmissionIdWithNonce o nonce db).isOk
  | .updateChallengeRewards c id rewards => (BitzPool.updateChallengeRewards o c id rewards db).1.isOk

/-- The row of the challenge is not given up. -/
def MineStmt.ChallengeKept (o : CallOutcome) (db : Database) : MineStmt → Prop
  | .getSubmissionIdWithNonce nonce _ _ => (BitzPool.getSubmissionIdWithNonce o nonce db).isOk = true
  | .updateChallengeRewards c id rewards => (BitzPool.updateChallengeRewards o c id rewards db).1.isOk = true
  | _ => True

instance (o : CallOutcome) (db : Database) (st : MineStmt) : Decidable (st.Spared o db) := by
  cases st <;> unfold MineStmt.Spared <;> infer_instance

instance (o : CallOutcome) (db : Database) (st : MineStmt) : Decidable (st.ChallengeKept o db) := by
  cases st <;> unfold MineStmt.ChallengeKept <;> infer_instance

/-- No division by a total of zero. -/
def MessageInternalMineSuccess.Divisible (msg : MessageInternalMineSuccess) : Prop :=
  msg.submissions.entries = [] ∨ msg.totalHashpower.toNat ≠ 0 ∧ msg.totalRealHashpower.toNat ≠ 0

instance (msg : MessageInternalMineSuccess) : Decidable msg.Divisible := by
  unfold MessageInternalMineSuccess.Divisible
  infer_instance

namespace Receiver

/-- The step is not one of those that lose a payout. -/
def Benign (s : Receiver) : ReceiverEvent → Prop
  | .receive _ => ∀ msg ∈ s.channel.head?, msg.Divisible
  | .call o => ∀ st ∈ s.mine.todo.head?, st.Spared o s.db

def KeepsChallenges (s : Receiver) : ReceiverEvent → Prop
  | .receive _ => True
  | .call o => ∀ st ∈ s.mine.todo.head?, st.ChallengeKept o s.db

instance (s : Receiver) (e : ReceiverEvent) : Decidable (s.Benign e) := by
  cases e <;> unfold Benign <;> infer_instance

instance (s : Receiver) (e : ReceiverEvent) : Decidable (s.KeepsChallenges e) := by
  cases e <;> unfold KeepsChallenges <;> infer_instance

end Receiver

/-! ### What a call applies -/

/-- The database has what the statement carries, once. -/
structure MineStmt.Applied (st : MineStmt) (db db' : Database) : Prop where
  earnings : db'.earnings = db.earnings ++ st.earnings
  submissions : db'.submissions = db.submissions ++ st.submissions
  has : ∀ {id}, db.rewards.Has id → db'.rewards.Has id
  balance : (∀ u ∈ st.credits, db.rewards.Has u.minerId) →
    ∀ id, db'.balance id = db.balance id + batchSum st.credits id
  pool : ∀ {p}, db.pool = some p → ∃ p', db'.pool = some p' ∧ p'.totalRewards.toNat = p.totalRewards.toNat + st.pooled
  looked : ∀ {id}, st = .getMinerRewardsById id → db.rewards.Has id

/-- The calls that follow a statement: the update of the challenge after its submission is found. -/
def MineStmt.Follows (st : MineStmt) (more : List MineStmt) : Prop :=
  more = [] ∨ ∃ nonce c rewards id,
    st = .getSubmissionIdWithNonce nonce c rewards ∧ more = [.updateChallengeRewards c id rewards]

/-- They carry no rows. -/
theorem MineStmt.Follows.blank {st : MineStmt} {more : List MineStmt} (h : st.Follows more) :
    more.flatMap earnings = [] ∧ more.flatMap submissions = [] ∧ more.flatMap credits = [] ∧ pooledSum more = 0 := by
  rcases h with rfl | ⟨_, _, _, _, -, rfl⟩ <;> exact ⟨rfl, rfl, rfl, rfl⟩

private theorem MineStmt.Applied.of_same {st : MineStmt} {db db' : Database} (hl : db.SameLedger db')
    (hsub : db'.submissions = db.submissions) (hidle : st.Idle) (hst : st.submissions = [])
    (hlook : ∀ {id}, st = .getMinerRewardsById id → db.rewards.Has id) : st.Applied db db' where
  earnings := by rw [hl.earnings, hidle.1, List.append_nil]
  submissions := by rw [hsub, hst, List.append_nil]
  has h := by rwa [hl.rewards]
  balance _ id := by rw [hidle.2.1, Database.balance, Database.balance, hl.rewards]; rfl
  pool h := ⟨_, hl.pool.trans h, by rw [hidle.2.2, Nat.add_zero]⟩
  looked := hlook

private theorem updateChallengeRewards_submissions (o : CallOutcome) (c : Challenge) (id : ℕ) (rewards : UInt64)
    (db : Database) : (updateChallengeRewards o c id rewards db).2.submissions = db.submissions := by
  rw [updateChallengeRewards, expectRows_db]
  exact interact_frame Database.submissions (by rintro _ _ ⟨⟩; rfl)

/-- A credit that reports `Ok` is applied, or had nothing to add. -/
private theorem MineStmt.Applied.of_updateRewards {o : CallOutcome} {batch : List UpdateReward} {db db' : Database}
    (hspared : SqlFails o batch db → CreditsNothing batch db) (h : BitzPool.updateRewards o batch db = (.ok (), db')) :
    (MineStmt.updateRewards batch).Applied db db' := by
  by_cases hfail : SqlFails o batch db
  · have hzero := hspared hfail
    rcases updateRewards_ok h with ⟨-, rfl⟩ | ⟨rfl, hq⟩
    · refine ⟨(List.append_nil _).symm, (List.append_nil _).symm, id, fun hhas id => ?_, fun hp => ⟨_, hp, rfl⟩,
        by rintro _ ⟨⟩⟩
      have hnone : batchSum batch id = 0 := by
        by_cases hid : db'.rewards.Has id
        · exact hzero id hid
        · refine sumAt_eq_zero fun u hu he => ?_
          rw [← he] at hid
          exact absurd (hhas u hu) hid
      rw [credits, hnone, Nat.add_zero]
    · -- an executed statement has not failed
      rcases hfail with hfail | ⟨-, hfail⟩
      · cases hfail
      · rw [hq] at hfail
        cases hfail
  · obtain ⟨hc, -, heq⟩ := updateRewardsQuery_spec ((updateRewards_ok h).resolve_left fun h => hfail h.1).2
    refine ⟨?_, ?_, fun {id} hid => (hc id).1.2 hid, fun hhas id => ?_, fun hp => ⟨_, ?_, rfl⟩, by rintro _ ⟨⟩⟩
    · rw [heq]
      exact (List.append_nil _).symm
    · rw [heq]
      exact (List.append_nil _).symm
    · exact (Treasury.balance_of_updateRewards h hfail hhas id).1
    · rw [heq]
      exact hp

private theorem MineStmt.Applied.of_updatePoolRewards {o : CallOutcome} {rewards : UInt64} {db db' : Database} {n : ℕ}
    (h : BitzPool.updatePoolRewards o rewards db = (.ok n, db')) :
    (MineStmt.updatePoolRewards rewards).Applied db db' := by
  rcases updatePoolRewards_ok h with ⟨hnone, rfl⟩ | ⟨p, p', hp, htotal, -, rfl⟩
  · refine ⟨(List.append_nil _).symm, (List.append_nil _).symm, id, fun _ _ => rfl, fun hp => ?_, by rintro _ ⟨⟩⟩
    rw [hnone] at hp
    cases hp
  · refine ⟨(List.append_nil _).symm, (List.append_nil _).symm, id, fun _ _ => rfl, fun hp' => ?_, by rintro _ ⟨⟩⟩
    rw [hp] at hp'
    cases hp'
    exact ⟨p', rfl, htotal⟩

/-- A call under `Spared` is repeated or applied; it does not end the task. -/
theorem MineStmt.exec_spared {o : CallOutcome} {db : Database} {st : MineStmt} (h : st.Spared o db) :
    st.exec o db = (.retry, db) ∨
      ∃ more db', st.exec o db = (.next more, db') ∧ st.Applied db db' ∧ st.Follows more := by
  cases st with
  | getMinerById id =>
    obtain ⟨m, hm⟩ := isOk_iff.1 h
    refine Or.inr ⟨[], db, by rw [exec, hm]; rfl, .of_same (.refl db) rfl ⟨rfl, rfl, rfl⟩ rfl ?_, .inl rfl⟩
    rintro _ ⟨⟩
  | getMinerRewardsById id =>
    obtain ⟨r, hr⟩ := isOk_iff.1 h
    refine Or.inr ⟨[], db, by rw [exec, hr]; rfl, .of_same (.refl db) rfl ⟨rfl, rfl, rfl⟩ rfl ?_, .inl rfl⟩
    rintro _ ⟨⟩
    exact Table.has_iff.2 ⟨r, query_ok hr⟩
  | addNewEarningsBatch batch =>
    rcases he : BitzPool.addNewEarningsBatch o batch db with ⟨e | ⟨⟩, db'⟩
    · refine Or.inl ?_
      rw [exec, he, retrying, addNewEarningsBatch_error he]
    · refine Or.inr ⟨[], db', by rw [exec, he, retrying], ?_, .inl rfl⟩
      rw [addNewEarningsBatch_ok he]
      exact ⟨rfl, (List.append_nil _).symm, id, fun _ _ => rfl, fun hp => ⟨_, hp, rfl⟩, by rintro _ ⟨⟩⟩
  | updateRewards batch =>
    rcases he : BitzPool.updateRewards o batch db with ⟨e | ⟨⟩, db'⟩
    · refine Or.inl ?_
      rw [exec, he, retrying, (updateRewards_error he).1]
    · exact Or.inr ⟨[], db', by rw [exec, he, retrying], .of_updateRewards h he, .inl rfl⟩
  | addNewSubmissionsBatch batch =>
    rcases he : BitzPool.addNewSubmissionsBatch o batch db with ⟨e | ⟨⟩, db'⟩
    · refine Or.inl ?_
      rw [exec, he, retrying, addNewSubmissionsBatch_error he]
    · refine Or.inr ⟨[], db', by rw [exec, he, retrying], ?_, .inl rfl⟩
      rw [addNewSubmissionsBatch_ok he]
      exact ⟨(List.append_nil _).symm, rfl, id, fun _ _ => rfl, fun hp => ⟨_, hp, rfl⟩, by rintro _ ⟨⟩⟩
  | updatePoolRewards rewards =>
    rcases he : BitzPool.updatePoolRewards o rewards db with ⟨e | n, db'⟩
    · refine Or.inl ?_
      rw [exec, he, retrying, interact_error he]
    · exact Or.inr ⟨[], db', by rw [exec, he, retrying], .of_updatePoolRewards he, .inl rfl⟩
  | getSubmissionIdWithNonce nonce c rewards =>
    have happlied : (MineStmt.getSubmissionIdWithNonce nonce c rewards).Applied db db :=
      .of_same (.refl db) rfl ⟨rfl, rfl, rfl⟩ rfl (by rintro _ ⟨⟩)
    rcases he : BitzPool.getSubmissionIdWithNonce o nonce db with e | id
    · exact Or.inr ⟨[], db, by rw [exec, he], happlied, .inl rfl⟩
    · exact Or.inr ⟨_, db, by rw [exec, he], happlied, .inr ⟨nonce, c, rewards, id, rfl, rfl⟩⟩
  | updateChallengeRewards c id rewards =>
    refine Or.inr ⟨[], _, rfl, .of_same (updateChallengeRewards_sameLedger o c id rewards db) ?_ ⟨rfl, rfl, rfl⟩ rfl
      (by rintro _ ⟨⟩), .inl rfl⟩
    exact updateChallengeRewards_submissions o c id rewards db

/-- A call under `Spared` leaves the database and the task alone, or its statement is applied and done with. -/
theorem MineTask.call_cases {o : CallOutcome} {db db' : Database} {t t' : MineTask}
    (hC : ∀ st ∈ t.todo.head?, st.Spared o db) (h : t.call o db = some (db', t')) :
    ∃ st todo, t = ⟨st :: todo, false⟩ ∧ (st.exec o db = (.retry, db) ∧ db' = db ∧ t' = t ∨
      ∃ more, st.exec o db = (.next more, db') ∧ st.Applied db db' ∧ st.Follows more ∧ t' = ⟨more ++ todo, false⟩) := by
  unfold call at h
  split at h
  · next st todo =>
    refine ⟨st, todo, rfl, ?_⟩
    rcases MineStmt.exec_spared (hC st rfl) with hexec | ⟨more, db'', hexec, happlied, hmore⟩
    · rw [hexec] at h
      cases h
      exact Or.inl ⟨hexec, rfl, rfl⟩
    · rw [hexec] at h
      cases h
      exact Or.inr ⟨more, hexec, happlied, hmore, rfl⟩
  · cases h

/-! ### What the calls of a task carry -/

/-- The tables with what the calls `todo` carry on top: the earnings, the submissions, and the balance of every miner.  The
calls are in order, and a miner is looked up before a credit. -/
structure Carried (db : Database) (todo : List MineStmt) (earnings : List InsertEarning)
    (submissions : List InsertSubmission) (balance : MinerId → ℕ) : Prop where
  earnings : db.earnings ++ todo.flatMap MineStmt.earnings = earnings
  submissions : db.submissions ++ todo.flatMap MineStmt.submissions = submissions
  balance : ∀ id, db.balance id + creditsToCome todo id = balance id
  inPhases : InPhases todo
  checked : ∀ u ∈ todo.flatMap MineStmt.credits,
    db.rewards.Has u.minerId ∨ .getMinerRewardsById u.minerId ∈ todo

/-- An idle task that receives a message has calls for its rows to make. -/
theorem Carried.statements {db : Database} {E : List InsertEarning} {S : List InsertSubmission} {B : MinerId → ℕ}
    (h : Carried db [] E S B) {poolId : RowId} {msg : MessageInternalMineSuccess} {socks : Sockets} {rows : PayoutRows}
    (hrows : payoutRows poolId msg socks = some rows) :
    Carried db (statements msg rows) (E ++ rows.earnings) (S ++ rows.submissions)
      fun id => B id + batchSum rows.rewards id where
  earnings := by rw [statements_earnings, ← h.earnings]; simp
  submissions := by rw [statements_submissions, ← h.submissions]; simp
  balance id := by rw [creditsToCome, statements_credits, ← h.balance]; simp [creditsToCome, batchSum]
  inPhases := statements_inPhases msg rows
  checked u hu := by
    rw [statements_credits] at hu
    obtain ⟨e, he, hid⟩ := (payoutRows_rewards hrows).2 u hu
    have hmem : MineStmt.getMinerRewardsById e.2.minerId ∈ msg.submissions.entries.flatMap fun e =>
        [.getMinerById e.2.minerId, .getMinerRewardsById e.2.minerId] :=
      List.mem_flatMap.2 ⟨e, he, by simp⟩
    refine Or.inr ?_
    rw [hid]
    simp only [BitzPool.statements, List.append_assoc]
    exact List.mem_append_left _ hmem

/-- A statement that is applied takes what it carries from the calls to the tables. -/
theorem Carried.apply {db db' : Database} {st : MineStmt} {todo more : List MineStmt} {E : List InsertEarning}
    {S : List InsertSubmission} {B : MinerId → ℕ} (h : Carried db (st :: todo) E S B) (happlied : st.Applied db db')
    (hmore : st.Follows more) : Carried db' (more ++ todo) E S B := by
  obtain ⟨hearnings, hsubmissions, hbalance, hphases, hchecked⟩ := h
  have hblank := hmore.blank
  -- the lookup of a miner is made before the credits
  have hhas : ∀ u ∈ st.credits, db.rewards.Has u.minerId := by
    intro u hu
    rcases hchecked u (by rw [List.flatMap_cons]; exact List.mem_append_left _ hu) with h | h
    · exact h
    · rcases List.mem_cons.1 h with h | h
      · rw [← h] at hu
        cases hu
      · have hle := (List.pairwise_cons.1 hphases).1 _ h
        cases st <;> simp [MineStmt.phase, MineStmt.credits] at hle hu
  refine ⟨?_, ?_, fun id => ?_, ?_, fun u hu => ?_⟩
  · rw [happlied.earnings, List.flatMap_append, hblank.1, ← hearnings]
    simp
  · rw [happlied.submissions, List.flatMap_append, hblank.2.1, ← hsubmissions]
    simp
  · have hcome : creditsToCome (more ++ todo) id = creditsToCome todo id := by
      rw [creditsToCome, creditsToCome, List.flatMap_append, hblank.2.2.1, List.nil_append]
    rw [hcome, happlied.balance hhas, ← hbalance, creditsToCome_cons, Nat.add_assoc]
  · have htail := (List.pairwise_cons.1 hphases).2
    rcases hmore with rfl | ⟨nonce, c, rewards, id, rfl, rfl⟩
    · exact htail
    · exact List.pairwise_cons.2 ⟨(List.pairwise_cons.1 hphases).1, htail⟩
  · rw [List.flatMap_append, hblank.2.2.1, List.nil_append] at hu
    rcases hchecked u (by rw [List.flatMap_cons]; exact List.mem_append_right _ hu) with h | h
    · exact Or.inl (happlied.has h)
    · rcases List.mem_cons.1 h with h | h
      · exact Or.inl (happlied.has (happlied.looked h.symm))
      · exact Or.inr (List.mem_append_right _ h)

/-! ### Accounts -/

/-- The challenge whose row a statement is going to update. -/
def MineStmt.challenged : MineStmt → List Challenge
  | .getSubmissionIdWithNonce _ c _ => [c]
  | .updateChallengeRewards c _ _ => [c]
  | _ => []

/-- The number of calls a statement leads to. -/
def MineStmt.calls : MineStmt → ℕ
  | .getSubmissionIdWithNonce .. => 2
  | _ => 1

namespace Receiver

/-- The rows of the messages received are in the tables of `s`, once, on top of those of `s₀`. -/
structure PaidOut (s₀ s : Receiver) (received : Receipts) : Prop where
  messages : received.map Prod.fst = s₀.channel
  earnings : s.db.earnings = s₀.db.earnings ++ received.flatMap fun p => p.2.earnings
  submissions : s.db.submissions = s₀.db.submissions ++ received.flatMap fun p => p.2.submissions
  balance : ∀ id, s.db.balance id = s₀.db.balance id + batchSum (received.flatMap fun p => p.2.rewards) id
  pool : ∃ p₀ p, s₀.db.pool = some p₀ ∧ s.db.pool = some p ∧
    p.totalRewards.toNat = p₀.totalRewards.toNat + (received.map fun p => p.1.rewards.toNat).sum

/-- The same with what is still to come; and the task is alive. -/
structure Booked (s₀ s : Receiver) (received : Receipts) : Prop where
  alive : s.mine.dead = false
  messages : received.map Prod.fst ++ s.channel = s₀.channel
  earnings : s.db.earnings ++ s.mine.todo.flatMap MineStmt.earnings =
    s₀.db.earnings ++ received.flatMap fun p => p.2.earnings
  submissions : s.db.submissions ++ s.mine.todo.flatMap MineStmt.submissions =
    s₀.db.submissions ++ received.flatMap fun p => p.2.submissions
  balance : ∀ id, s.db.balance id + creditsToCome s.mine.todo id =
    s₀.db.balance id + batchSum (received.flatMap fun p => p.2.rewards) id
  pool : ∃ p₀ p, s₀.db.pool = some p₀ ∧ s.db.pool = some p ∧
    p.totalRewards.toNat + pooledSum s.mine.todo =
      p₀.totalRewards.toNat + (received.map fun p => p.1.rewards.toNat).sum

theorem Booked.paidOut {s₀ s : Receiver} {received : Receipts}
    (h : Booked s₀ s received) (hs : s.Consumed) : PaidOut s₀ s received := by
  obtain ⟨hchannel, htodo⟩ := hs
  obtain ⟨-, hmessages, hearnings, hsubmissions, hbalance, hpool⟩ := h
  simp only [hchannel, htodo, List.flatMap_nil, List.append_nil] at hmessages hearnings hsubmissions hbalance hpool
  exact ⟨hmessages, hearnings, hsubmissions, hbalance, hpool⟩

/-- What carries the accounts through a run. -/
structure Tracked (s₀ s : Receiver) (received : Receipts) : Prop where
  booked : Booked s₀ s received
  carried : Carried s.db s.mine.todo (s₀.db.earnings ++ received.flatMap fun p => p.2.earnings)
    (s₀.db.submissions ++ received.flatMap fun p => p.2.submissions)
    fun id => s₀.db.balance id + batchSum (received.flatMap fun p => p.2.rewards) id

/-! ### Steps -/

variable {poolId : RowId} {s₀ s s' : Receiver} {e : ReceiverEvent} {o : CallOutcome} {socks : Sockets}
  {received : Receipts} {r : PayoutRecord}

private theorem payoutRows_of_divisible {msg : MessageInternalMineSuccess} (h : msg.Divisible) (poolId : RowId)
    (socks : Sockets) : ∃ rows, payoutRows poolId msg socks = some rows := by
  refine Option.isSome_iff_exists.1 (payoutRows_isSome fun e he => ?_)
  rcases h with hnil | ⟨h1, h2⟩
  · rw [hnil] at he
    cases he
  · rw [Option.isSome_iff_ne_none, Ne, earnedRewards_eq_none, not_or]
    exact ⟨h1, h2⟩

theorem receive_cases (hC : s.Benign (.receive socks)) (h : s.step poolId (.receive socks) = some s') :
    ∃ msg channel rows, s.channel = msg :: channel ∧ s.mine = ⟨[], false⟩ ∧ payoutRows poolId msg socks = some rows ∧
      s' = { s with mine := ⟨statements msg rows, false⟩, channel := channel } := by
  simp only [step] at h
  split at h
  · cases h
  · next msg channel hch =>
    obtain ⟨rows, hrows⟩ := payoutRows_of_divisible (hC msg (by rw [hch]; rfl)) poolId socks
    obtain ⟨t, ht, rfl⟩ := Option.map_eq_some_iff.1 h
    simp only [MineTask.receive, hrows] at ht
    split at ht
    · next hidle =>
      cases ht
      refine ⟨msg, channel, rows, hch, ?_, hrows, rfl⟩
      rw [← hidle.1, ← hidle.2]
    · cases ht

theorem call_cases (hC : s.Benign (.call o)) (h : s.step poolId (.call o) = some s') :
    ∃ st todo, s.mine = ⟨st :: todo, false⟩ ∧ (st.exec o s.db = (.retry, s.db) ∧ s' = s ∨
      ∃ more db', st.exec o s.db = (.next more, db') ∧ st.Applied s.db db' ∧ st.Follows more ∧
        s' = { s with db := db', mine := ⟨more ++ todo, false⟩ }) := by
  obtain ⟨⟨db', t⟩, hcall, rfl⟩ := Option.map_eq_some_iff.1 h
  obtain ⟨st, todo, hmine, ⟨hexec, rfl, rfl⟩ | ⟨more, hexec, happlied, hmore, rfl⟩⟩ := MineTask.call_cases hC hcall
  · exact ⟨st, todo, hmine, Or.inl ⟨hexec, rfl⟩⟩
  · exact ⟨st, todo, hmine, Or.inr ⟨more, db', hexec, happlied, hmore, rfl⟩⟩

theorem watch_call (s : Receiver) (o : CallOutcome) (r : PayoutRecord) :
    (s.watch poolId (.call o) r).received = r.received := by
  simp only [watch]
  split
  · split <;> rfl
  · rfl

theorem watch_receive {msg : MessageInternalMineSuccess} {channel : List MessageInternalMineSuccess}
    {rows : PayoutRows} (hch : s.channel = msg :: channel) (hrows : payoutRows poolId msg socks = some rows) :
    s.watch poolId (.receive socks) r = { r with received := r.received ++ [(msg, rows)] } := by
  simp only [watch, hch, hrows]
  rfl

private theorem Tracked.receive (hs : s₀.Tracked s r.received) (hC : s.Benign (.receive socks))
    (h : s.step poolId (.receive socks) = some s') :
    s₀.Tracked s' (s.watch poolId (.receive socks) r).received := by
  obtain ⟨msg, channel, rows, hch, hmine, hrows, rfl⟩ := receive_cases hC h
  obtain ⟨⟨-, hmessages, -, -, -, p₀, p, hp₀, hp, hpool⟩, hcarried⟩ := hs
  rw [hmine] at hpool hcarried
  have hcarried' : Carried s.db (statements msg rows)
      (s₀.db.earnings ++ (r.received ++ [(msg, rows)]).flatMap fun p => p.2.earnings)
      (s₀.db.submissions ++ (r.received ++ [(msg, rows)]).flatMap fun p => p.2.submissions)
      (fun id => s₀.db.balance id + batchSum ((r.received ++ [(msg, rows)]).flatMap fun p => p.2.rewards) id) := by
    simpa [List.append_assoc, batchSum_append, Nat.add_assoc] using hcarried.statements hrows
  rw [watch_receive hch hrows]
  refine ⟨⟨rfl, ?_, hcarried'.earnings, hcarried'.submissions, hcarried'.balance, p₀, p, hp₀, hp, ?_⟩, hcarried'⟩
  · rw [hch] at hmessages
    simpa using hmessages
  · simp only [pooledSum, List.map_nil, List.sum_nil] at hpool
    rw [pooledSum, statements_pooled, List.map_append, List.sum_append]
    simp only [List.map_cons, List.map_nil, List.sum_cons, List.sum_nil]
    omega

private theorem Tracked.call (hs : s₀.Tracked s r.received) (hC : s.Benign (.call o))
    (h : s.step poolId (.call o) = some s') : s₀.Tracked s' (s.watch poolId (.call o) r).received := by
  rw [watch_call]
  obtain ⟨st, todo, hmine, ⟨-, rfl⟩ | ⟨more, db', -, happlied, hmore, rfl⟩⟩ := call_cases hC h
  · exact hs
  obtain ⟨⟨-, hmessages, -, -, -, p₀, p, hp₀, hp, hpool⟩, hcarried⟩ := hs
  rw [hmine] at hpool hcarried
  have hcarried' := hcarried.apply happlied hmore
  obtain ⟨p', hp', htotal⟩ := happlied.pool hp
  refine ⟨⟨rfl, hmessages, hcarried'.earnings, hcarried'.submissions, hcarried'.balance, p₀, p', hp₀, hp', ?_⟩,
    hcarried'⟩
  rw [pooledSum_append, hmore.blank.2.2.2, ← hpool, pooledSum_cons, htotal]
  omega

theorem Tracked.step (hs : s₀.Tracked s r.received) (hC : s.Benign e) (h : s.step poolId e = some s') :
    s₀.Tracked s' (s.watch poolId e r).received := by
  cases e with
  | receive socks => exact hs.receive hC h
  | call o => exact hs.call hC h

/-! ### Challenges -/

/-- Every message has updated the row of its challenge, or is still going to. -/
def ChallengesBooked (s : Receiver) (r : PayoutRecord) : Prop :=
  r.challenges ++ s.mine.todo.flatMap MineStmt.challenged = r.received.map fun p => p.1.challenge

private theorem statements_challenged (msg : MessageInternalMineSuccess) (rows : PayoutRows) :
    (statements msg rows).flatMap MineStmt.challenged = [msg.challenge] := by
  simp [flatMap_statements, MineStmt.challenged, flatMap_const_nil]

private theorem watch_of_retry {st : MineStmt} {todo : List MineStmt} (hmine : s.mine = ⟨st :: todo, false⟩)
    {db' : Database} (h : st.exec o s.db = (.retry, db')) : s.watch poolId (.call o) r = r := by
  cases st with
  | updateChallengeRewards c id rewards => cases h
  | _ => simp [watch, hmine]

private theorem watch_of_next {st : MineStmt} {todo more : List MineStmt} (hmine : s.mine = ⟨st :: todo, false⟩)
    {db' : Database} (h : st.exec o s.db = (.next more, db')) (hmore : st.Follows more)
    (hkept : st.ChallengeKept o s.db) :
    (s.watch poolId (.call o) r).challenges ++ more.flatMap MineStmt.challenged = r.challenges ++ st.challenged := by
  cases st with
  | getSubmissionIdWithNonce nonce c rewards =>
    obtain ⟨id, hid⟩ := isOk_iff.1 hkept
    rw [MineStmt.exec, hid] at h
    cases h
    simp [watch, hmine, MineStmt.challenged]
  | updateChallengeRewards c id rewards =>
    obtain ⟨_, hok⟩ := isOk_iff.1 hkept
    cases h
    simp [watch, hmine, hok, MineStmt.challenged]
  | _ =>
    obtain rfl : more = [] := hmore.resolve_right (by rintro ⟨_, _, _, _, h, -⟩; cases h)
    simp [watch, hmine, MineStmt.challenged]

theorem ChallengesBooked.step (hs : s.ChallengesBooked r) (hC : s.Benign e) (hK : s.KeepsChallenges e)
    (h : s.step poolId e = some s') : s'.ChallengesBooked (s.watch poolId e r) := by
  cases e with
  | receive socks =>
    obtain ⟨msg, channel, rows, hch, hmine, hrows, rfl⟩ := receive_cases hC h
    rw [watch_receive hch hrows, ChallengesBooked, statements_challenged, List.map_append, ← hs, hmine]
    simp
  | call o =>
    obtain ⟨st, todo, hmine, hcase⟩ := call_cases hC h
    have hkept := hK st (by rw [hmine]; rfl)
    rw [ChallengesBooked, hmine, List.flatMap_cons] at hs
    rw [ChallengesBooked, watch_call, ← hs]
    rcases hcase with ⟨hretry, rfl⟩ | ⟨more, db', hnext, -, hmore, rfl⟩
    · rw [watch_of_retry hmine hretry, hmine, List.flatMap_cons]
    · rw [List.flatMap_append, ← List.append_assoc, watch_of_next hmine hnext hmore hkept, List.append_assoc]

/-! ### Progress -/

/-- The messages to be received, and the calls to be made before the next. -/
def remaining (s : Receiver) : ℕ ×ₗ ℕ := toLex (s.channel.length, (s.mine.todo.map MineStmt.calls).sum)

/-- A call is repeated only after an error. -/
private theorem isOk_of_retry {st : MineStmt} {db db' : Database} (h : st.exec o db = (.retry, db')) :
    st.isOk o db = false := by
  have hretrying : ∀ {β : Type} {res : Except AppDatabaseError β × Database}, retrying res = (.retry, db') →
      res.1.isOk = false := by
    intro β res hres
    rcases res with ⟨_ | _, db₀⟩
    · rfl
    · cases hres
  have hunwrapping : ∀ {β : Type} {res : Except AppDatabaseError β}, unwrapping res db ≠ (.retry, db') := by
    intro β res hres
    cases res <;> cases hres
  cases st with
  | getMinerById | getMinerRewardsById => exact absurd h hunwrapping
  | getSubmissionIdWithNonce nonce challenge rewards =>
    simp only [MineStmt.exec] at h
    split at h <;> cases h
  | updateChallengeRewards => cases h
  | _ => exact hretrying h

/-- A step that brings the task no nearer to its end is a call that returns an error. -/
theorem remaining_step (hC : s.Benign e) (h : s.step poolId e = some s') :
    (∃ o st, e = .call o ∧ s.mine.todo.head? = some st ∧ st.isOk o s.db = false ∧ s' = s) ∨
      s'.remaining < s.remaining := by
  cases e with
  | receive socks =>
    obtain ⟨msg, channel, rows, hch, -, -, rfl⟩ := receive_cases hC h
    refine Or.inr (Prod.Lex.toLex_lt_toLex.2 (Or.inl ?_))
    rw [hch]
    exact Nat.lt_succ_self _
  | call o =>
    obtain ⟨st, todo, hmine, ⟨hretry, rfl⟩ | ⟨more, db', -, -, hmore, rfl⟩⟩ := call_cases hC h
    · exact Or.inl ⟨o, st, rfl, by rw [hmine]; rfl, isOk_of_retry hretry, rfl⟩
    · refine Or.inr (Prod.Lex.toLex_lt_toLex.2 (Or.inr ⟨rfl, ?_⟩))
      rw [hmine]
      rcases hmore with rfl | ⟨_, _, _, _, rfl, rfl⟩
      · cases st <;> simp [MineStmt.calls]
      · simp [MineStmt.calls]

/-! ### Runs -/

/-- The next step of the loop: a call when there is one to make, else the next message. -/
def next (s : Receiver) (x : Sockets × CallOutcome) : ReceiverEvent :=
  if s.mine.todo = [] then .receive x.1 else .call x.2

private theorem step_isSome (halive : s.mine.dead = false) (hs : ¬ s.Consumed) (x : Sockets × CallOutcome) :
    (s.step poolId (s.next x)).isSome := by
  rcases hmine : s.mine with ⟨_ | ⟨st, todo⟩, dead⟩
  · rcases hch : s.channel with _ | ⟨msg, channel⟩
    · exact absurd ⟨hch, by rw [hmine]⟩ hs
    · rw [hmine] at halive
      simp only at halive
      subst halive
      simp only [next, hmine, if_true, step, hch, Option.isSome_map, MineTask.receive, and_self]
      split <;> rfl
  · rw [hmine] at halive
    simp only at halive
    subst halive
    simp only [next, hmine, reduceCtorEq, if_false, step, Option.isSome_map, MineTask.call]
    split <;> rfl

/-- The loop running on and on, on the connections and the outcomes `x`: no step loses a payout, and no call fails for
ever, an error each time that it is made. -/
structure Execution (poolId : RowId) (t : ℕ → Receiver) (x : ℕ → Sockets × CallOutcome) : Prop where
  moves : ∀ n, t (n + 1) = ((t n).step poolId ((t n).next (x n))).getD (t n)
  benign : ∀ n, (t n).Benign ((t n).next (x n))
  finite : ∀ n st, ¬ ∀ k ≥ n, (t k).mine.todo.head? = some st ∧ st.isOk (x k).2 (t k).db = false

theorem tracked_of_run {es : List ReceiverEvent} (hmine : s.mine = ⟨[], false⟩) (hpool : s.db.pool.isSome)
    (hC : Along (step poolId) Benign s es)
    (h : run (watched (step poolId) (watch poolId)) (s, ⟨[], []⟩) es = some (s', r)) : s.Tracked s' r.received := by
  have hstart : s.Tracked s [] := by
    obtain ⟨p, hp⟩ := Option.isSome_iff_exists.1 hpool
    refine ⟨⟨by rw [hmine], rfl, ?_, ?_, fun id => ?_, p, p, hp, hp, ?_⟩, ⟨?_, ?_, fun id => ?_, ?_, ?_⟩⟩ <;> rw [hmine] <;>
      first | rfl | exact .nil | rintro u ⟨⟩
  refine run_invariant (I := fun x : Receiver × PayoutRecord => s.Tracked x.1 x.2.received) (fun {x e y} hx hC hxy => ?_) hstart
    (Along.watched (x := (s, ⟨[], []⟩)) hC) h
  obtain ⟨hstep, hrecord⟩ := watched_eq_some.1 hxy
  rw [hrecord]
  exact Tracked.step hx hC hstep

theorem challengesBooked_of_run {es : List ReceiverEvent} (hmine : s.mine = ⟨[], false⟩)
    (hC : Along (step poolId) Benign s es) (hK : Along (step poolId) KeepsChallenges s es)
    (h : run (watched (step poolId) (watch poolId)) (s, ⟨[], []⟩) es = some (s', r)) : s'.ChallengesBooked r := by
  have hstart : s.ChallengesBooked ⟨[], []⟩ := by
    rw [ChallengesBooked, hmine]
    rfl
  refine run_invariant (I := fun x : Receiver × PayoutRecord => x.1.ChallengesBooked x.2) (fun {x e y} hx hC hxy => ?_) hstart
    (Along.watched (x := (s, ⟨[], []⟩)) (hC.and hK)) h
  obtain ⟨hstep, hrecord⟩ := watched_eq_some.1 hxy
  rw [hrecord]
  exact hx.step hC.1 hC.2 hstep

section Forever

variable {t : ℕ → Receiver} {x : ℕ → Sockets × CallOutcome}

/-- What it gets to is reached by a run. -/
theorem Execution.reaches (ht : Execution poolId t x) (n : ℕ) :
    ∃ es r, run (watched (step poolId) (watch poolId)) (t 0, ⟨[], []⟩) es = some (t n, r) ∧
      Along (step poolId) Benign (t 0) es := by
  induction n with
  | zero => exact ⟨[], ⟨[], []⟩, rfl, trivial⟩
  | succ n ih =>
    obtain ⟨es, r, hrun, hC⟩ := ih
    have hnext := ht.moves n
    rcases hstep : (t n).step poolId ((t n).next (x n)) with _ | s'
    · rw [hstep] at hnext
      exact ⟨es, r, hnext ▸ hrun, hC⟩
    · rw [hstep, Option.getD_some] at hnext
      have hlast : run (watched (step poolId) (watch poolId)) (t n, r) [(t n).next (x n)] =
          some (t (n + 1), (t n).watch poolId ((t n).next (x n)) r) :=
        run_cons.2 ⟨_, watched_eq_some.2 ⟨hstep, rfl⟩, by rw [hnext]; rfl⟩
      have hreached : run (step poolId) (t 0) es = some (t n) := by
        have hwatched : (run (watched (step poolId) (watch poolId)) (t 0, ⟨[], []⟩) es).map Prod.fst =
          run (step poolId) (t 0) es := run_watched _ es
        rw [← hwatched, hrun]
        rfl
      exact ⟨es ++ [(t n).next (x n)], _, run_append.2 ⟨_, hrun, hlast⟩,
        hC.append hreached ⟨ht.benign n, fun _ _ => trivial⟩⟩

/-- It consumes every message. -/
theorem Execution.consumed (ht : Execution poolId t x) (halive : ∀ n, (t n).mine.dead = false) :
    ∃ N, (t N).Consumed := by
  have hprogress : ∀ n, t (n + 1) = t n ∨ (t (n + 1)).remaining < (t n).remaining := by
    intro n
    have hnext := ht.moves n
    rcases hstep : (t n).step poolId ((t n).next (x n)) with _ | s'
    · rw [hstep] at hnext
      exact Or.inl hnext
    · rw [hstep] at hnext
      rcases remaining_step (ht.benign n) hstep with ⟨_, _, -, -, -, rfl⟩ | hlt
      · exact Or.inl hnext
      · rw [hnext]
        exact Or.inr hlt
  obtain ⟨N, hN⟩ := eventually_stable remaining hprogress
  by_contra! hnever
  -- at rest, one call is made over and over, and fails each time
  have hfails : ∀ k ≥ N, ∃ st, (t k).mine.todo.head? = some st ∧ st.isOk (x k).2 (t k).db = false := by
    intro k hk
    have hmoves : ((t k).step poolId ((t k).next (x k))).isSome := step_isSome (halive k) (hnever k) (x k)
    obtain ⟨s', hs'⟩ := Option.isSome_iff_exists.1 hmoves
    have hrest : s' = t k := by
      have hnext := ht.moves k
      rw [hs'] at hnext
      exact hnext.symm.trans ((hN (k + 1) (Nat.le_succ_of_le hk)).trans (hN k hk).symm)
    rcases remaining_step (ht.benign k) hs' with ⟨o, st, ho, hst, herr, -⟩ | hlt
    · unfold next at ho
      split at ho
      · cases ho
      · cases ho
        exact ⟨st, hst, herr⟩
    · rw [hrest] at hlt
      exact absurd hlt (lt_irrefl _)
  obtain ⟨st, hst, -⟩ := hfails N le_rfl
  refine ht.finite N st fun k hk => ?_
  obtain ⟨st', hst', herr⟩ := hfails k hk
  have hsame : st' = st := by
    rw [hN k hk, hst] at hst'
    exact (Option.some.inj hst').symm
  rw [← hsame]
  exact ⟨hst', herr⟩

end Forever

/-- From an idle task and any messages: in a run in which no unwrapped lookup fails, no divisor is zero and no credit is
lost inside `update_rewards`, the rows of the messages received are applied once or still to come, so that all are
applied once when everything is consumed; and no message is left out of the updates of the challenges if none of these
is given up.  When no call fails for ever, everything is consumed. -/
theorem payouts_survive (poolId : RowId) {s : Receiver} (hmine : s.mine = ⟨[], false⟩) (hpool : s.db.pool.isSome) :
    (∀ es s' r, Along (step poolId) Benign s es →
      run (watched (step poolId) (watch poolId)) (s, ⟨[], []⟩) es = some (s', r) →
        s.Booked s' r.received ∧ (s'.Consumed → s.PaidOut s' r.received) ∧
          (Along (step poolId) KeepsChallenges s es → s'.ChallengesBooked r)) ∧
    ∀ t x, Execution poolId t x → t 0 = s → ∃ N es r, (t N).Consumed ∧ Along (step poolId) Benign s es ∧
      run (watched (step poolId) (watch poolId)) (s, ⟨[], []⟩) es = some (t N, r) ∧ s.PaidOut (t N) r.received := by
  constructor
  · intro es s' r hC h
    have hbooked := (tracked_of_run hmine hpool hC h).booked
    exact ⟨hbooked, hbooked.paidOut, fun hK => challengesBooked_of_run hmine hC hK h⟩
  · rintro t x ht rfl
    have hbooked : ∀ n, ∃ es r, Along (step poolId) Benign (t 0) es ∧
        run (watched (step poolId) (watch poolId)) (t 0, ⟨[], []⟩) es = some (t n, r) ∧
          (t 0).Booked (t n) r.received := by
      intro n
      obtain ⟨es, r, hrun, hC⟩ := ht.reaches n
      exact ⟨es, r, hC, hrun, (tracked_of_run hmine hpool hC hrun).booked⟩
    obtain ⟨N, hN⟩ := ht.consumed fun n => by
      obtain ⟨_, _, -, -, h⟩ := hbooked n
      exact h.alive
    obtain ⟨es, r, hC, hrun, h⟩ := hbooked N
    exact ⟨N, es, r, hN, hC, hrun, h.paidOut hN⟩

/-- A receiver with two messages for the same miner, whose challenge has a row, for examples. -/
def exampleReceiver : Receiver where
  db := { Database.single (filled 7) 0 with challenges := ⟨[⟨⟨1, filled 0⟩, 1, none, none⟩], by simp⟩ }
  mine := ⟨[], false⟩
  channel := [exampleRound.message 1000 1, exampleRound.message 500 1]

def exampleSocks : Sockets := AList.singleton (.v4 0 1) ⟨1, filled 7, 1, "rig"⟩

/-- Two messages, and a failure before each batch write and each update of the pool. -/
def twoMessages : List ReceiverEvent :=
  let fail := [.call .noConnection, .call .executed]
  let message := [.receive exampleSocks, .call .executed, .call .executed] ++ fail ++ fail ++ fail ++ fail ++
    [.call .executed, .call .executed]
  message ++ message

/-- The loop on connections and outcomes that never change. -/
def steady (x : Sockets × CallOutcome) (s : Receiver) : ℕ → Receiver
  | 0 => s
  | n + 1 => ((steady x s n).step 1 ((steady x s n).next x)).getD (steady x s n)

theorem steady_execution {x : Sockets × CallOutcome} {s : Receiver} {N : ℕ} (hN : (steady x s N).Consumed)
    (hbenign : ∀ n < N, (steady x s n).Benign ((steady x s n).next x)) : Execution 1 (steady x s) fun _ => x := by
  have hrest : ∀ n ≥ N, (steady x s n).Consumed := by
    intro n hn
    induction n, hn using Nat.le_induction with
    | base => exact hN
    | succ n _ ih => simpa [steady, next, ih.2, step, ih.1] using ih
  refine ⟨fun n => rfl, fun n => ?_, fun n st hfails => ?_⟩
  · rcases Nat.lt_or_ge n N with hn | hn
    · exact hbenign n hn
    · simp [next, (hrest n hn).2, Benign, (hrest n hn).1]
  · obtain ⟨hst, -⟩ := hfails (max n N) (le_max_left _ _)
    rw [(hrest _ (le_max_right _ _)).2] at hst
    cases hst

theorem payouts_survive_example :
    (∃ s' r, run (watched (step 1) (watch 1)) (exampleReceiver, ⟨[], []⟩) twoMessages = some (s', r) ∧ s'.Consumed ∧
      exampleReceiver.PaidOut s' r.received ∧ s'.ChallengesBooked r) ∧
    ∃ N r, exampleReceiver.PaidOut (steady (exampleSocks, .executed) exampleReceiver N) r := by
  have hall := payouts_survive 1 (s := exampleReceiver) rfl rfl
  constructor
  · obtain ⟨⟨s', r⟩, h, hs'⟩ : ∃ y, run (watched (step 1) (watch 1)) (exampleReceiver, ⟨[], []⟩) twoMessages = some y ∧
        (y.1.channel = [] ∧ y.1.mine.todo = []) := exists_of_run (by decide +kernel)
    have hrun := hall.1 twoMessages s' r (by decide +kernel) h
    exact ⟨s', r, h, hs', hrun.2.1 hs', hrun.2.2 (by decide +kernel)⟩
  · have ht : Execution 1 (steady (exampleSocks, .executed) exampleReceiver) fun _ => (exampleSocks, .executed) :=
      steady_execution (N := 18) ⟨by decide +kernel, by decide +kernel⟩ (by decide +kernel)
    obtain ⟨N, _, r, -, -, -, hpaid⟩ := hall.2 _ _ ht rfl
    exact ⟨N, r.received, hpaid⟩

/-- One failed lookup of a miner ends the task: the first message has paid nothing, and neither it nor the second ever
will. -/
theorem payouts_lost :
    ∃ s', run (step 1) exampleReceiver [.receive exampleSocks, .call .noConnection] = some s' ∧
      s'.channel.map (fun msg => msg.rewards) = [500] ∧ s'.db.earnings = [] ∧ s'.db.balance 1 = 0 ∧
      ∀ e, s'.step 1 e = none := by
  obtain ⟨s', h, hdead, hch, hearnings, hbalance⟩ : ∃ s',
      run (step 1) exampleReceiver [.receive exampleSocks, .call .noConnection] = some s' ∧ s'.mine.dead = true ∧
        s'.channel.map (fun msg => msg.rewards) = [500] ∧ s'.db.earnings = [] ∧ s'.db.balance 1 = 0 :=
    exists_of_run (by decide +kernel)
  refine ⟨s', h, hch, hearnings, hbalance, fun e => ?_⟩
  rcases hmine : s'.mine with ⟨todo, dead⟩
  rw [hmine] at hdead
  simp only at hdead
  subst hdead
  cases e with
  | receive socks => cases hs : s'.channel <;> simp [step, hs, hmine, MineTask.receive]
  | call o => cases todo <;> simp [step, hmine, MineTask.call]

end Receiver

end BitzPool
