import BitzPool.EnsureChallenge
import BitzPool.Signup
import BitzPool.TreasurySteps

/-!
# What the other tasks write

Two systems leave the writes of other tasks open: `Signups` lets them write what keeps the keys of `miners` and
`rewards`, and the loops of `EndlessMining` meet writes that delete no row of `challenges`.  The tasks that move rewards
and those that mine write nothing else (`Treasury.Step.other`, `Mining.Step.other`, `Treasury.step_has`).
-/

namespace BitzPool

open Keyed

/-! ### The keys of `challenges` -/

def Database.challengeKeys (db : Database) : List Challenge := db.challenges.rows.map fun row => row.challenge

theorem challengeKeys_congr {db db' : Database} (h : db'.challenges = db.challenges) :
    db'.challengeKeys = db.challengeKeys := by
  rw [Database.challengeKeys, Database.challengeKeys, h]

theorem decreaseQuery_challenges {u : UpdateReward} {db db' : Database} {x : Unit}
    (h : decreaseQuery u db = some (x, db')) : db'.challenges = db.challenges := by
  unfold decreaseQuery at h
  split at h
  · cases h
    rfl
  · split at h <;> cases h
    rfl

theorem signupUserTransaction_challenges (o : CallOutcome) (id : MinerId) (pubkey : Pubkey) (db : Database) :
    (signupUserTransaction o id pubkey db).2.challenges = db.challenges := by
  refine interact_frame Database.challenges fun hq => ?_
  obtain ⟨miners, hunique, rewards, -, -, rfl⟩ := signupQuery_eq_some hq
  rfl

theorem ClaimStep.challenges {now : ℕ} {m m' : ClaimMemory} {i : ClaimInput} {pc pc' : ClaimPc}
    (h : ClaimStep now m i pc m' pc') : m'.db.challenges = m.db.challenges := by
  cases h with
  | decrease hquery => exact decreaseQuery_challenges hquery
  | addTxn _ hdb =>
    show _ = m.db.challenges
    rw [hdb]
  | _ => rfl

/-- The rewards of a challenge are an update of its row. -/
theorem updateChallengeRewards_keys (o : CallOutcome) (c : Challenge) (id : ℕ) (rewards : UInt64) (db : Database) :
    (updateChallengeRewards o c id rewards db).2.challengeKeys = db.challengeKeys := by
  rw [updateChallengeRewards, expectRows_db]
  refine interact_frame Database.challengeKeys fun hq => ?_
  cases hq
  exact Table.map_key_update db.challenges fun row => by split <;> rfl

theorem retrying_db {β : Type} (res : Except AppDatabaseError β × Database) : (retrying res).2 = res.2 := by
  rcases res with ⟨_ | _, db⟩ <;> rfl

theorem unwrapping_db {β : Type} (res : Except AppDatabaseError β) (db : Database) : (unwrapping res db).2 = db := by
  cases res <;> rfl

theorem MineStmt.exec_challenges (o : CallOutcome) (db : Database) (st : MineStmt) :
    (st.exec o db).2.challengeKeys = db.challengeKeys := by
  cases st with
  | getMinerById id | getMinerRewardsById id => rw [exec, unwrapping_db]
  | addNewEarningsBatch batch =>
    rw [exec, retrying_db, BitzPool.addNewEarningsBatch, expectRows_db]
    refine interact_frame Database.challengeKeys fun hq => ?_
    split at hq <;> cases hq
    rfl
  | updateRewards batch =>
    rw [exec, retrying_db]
    rcases he : BitzPool.updateRewards o batch db with ⟨e | ⟨⟩, db'⟩
    · rw [(updateRewards_error he).1]
    · rcases updateRewards_ok he with ⟨-, rfl⟩ | ⟨-, hq⟩
      · rfl
      · rw [(updateRewardsQuery_spec hq).2.2]
        rfl
  | addNewSubmissionsBatch batch =>
    rw [exec, retrying_db, BitzPool.addNewSubmissionsBatch, expectRows_db]
    refine interact_frame Database.challengeKeys fun hq => ?_
    cases hq
    rfl
  | updatePoolRewards rewards =>
    rw [exec, retrying_db]
    refine interact_frame Database.challengeKeys fun hq => ?_
    unfold updatePool at hq
    split at hq
    · cases hq
      rfl
    · obtain ⟨p', -, he⟩ := Option.map_eq_some_iff.1 hq
      cases he
      rfl
  | getSubmissionIdWithNonce nonce challenge rewards =>
    rw [exec]
    split <;> rfl
  | updateChallengeRewards challenge id rewards => exact updateChallengeRewards_keys o challenge id rewards db

theorem MineTask.call_challenges {o : CallOutcome} {db db' : Database} {t t' : MineTask}
    (h : t.call o db = some (db', t')) : db'.challengeKeys = db.challengeKeys := by
  unfold call at h
  split at h
  · next st todo =>
    have hkeys := st.exec_challenges o db
    split at h <;> next he => cases h; rwa [he] at hkeys
  · cases h

namespace Treasury

variable {su : Setup} {t t' : Treasury} {a : Action}

/-- No step of the tasks that move rewards deletes a row of `challenges`. -/
theorem step_has (h : step su t a = some t') {c : Challenge} (hc : t.db.challenges.Has c) : t'.db.challenges.Has c := by
  have hkeys : t'.db.challengeKeys = t.db.challengeKeys → t'.db.challenges.Has c := by
    intro he
    have hmem : c ∈ t.db.challengeKeys := hc
    rw [← he] at hmem
    exact hmem
  cases a with
  | payoutStep i input =>
    obtain ⟨p, -, h⟩ := Option.bind_eq_some_iff.1 h
    obtain ⟨⟨db, pc, msgs⟩, hpc, h⟩ := Option.bind_eq_some_iff.1 h
    cases h
    exact (PayoutPc.step_appends hpc).has hc
  | mineCall o =>
    obtain ⟨⟨db, mine⟩, hcall, he⟩ := Option.map_eq_some_iff.1 h
    cases he
    exact hkeys (MineTask.call_challenges hcall)
  | claimStep input =>
    cases step_sound h with
    | claim hclaim => exact hkeys (challengeKeys_congr hclaim.challenges)
  | signup o id pubkey =>
    cases h
    exact hkeys (challengeKeys_congr (signupUserTransaction_challenges o id pubkey t.db))
  | _ =>
    refine hkeys ?_
    cases step_sound h <;> rfl

end Treasury

/-! ### The keys of `miners` and `rewards` -/

section Keys

variable {verify : Verify} {s : Signups}

theorem Signups.step_other {db : Database} (h : db.keys = s.db.keys) :
    Signups.step verify s (.other db) = some (s.setDb db) := by
  simp [step, Action.newId?, h]

/-- What the tasks that move rewards write, other than by signing up, is a step of `Signups`. -/
theorem Treasury.Step.other {su : Setup} {t t' : Treasury} {a : Treasury.Action} (h : Treasury.Step su t a t')
    (ha : ∀ o id pubkey, a ≠ .signup o id pubkey) (hdb : s.db = t.db) :
    Signups.step verify s (.other t'.db) = some (s.setDb t'.db) := by
  refine Signups.step_other ?_
  rw [hdb]
  cases h with
  | claim hclaim => exact hclaim.keys
  | payout _ hpay => exact hpay.keys
  | mineCall hmine => exact hmine.keys
  | signup => exact absurd rfl (ha _ _ _)
  | _ => rfl

/-- So is what the tasks that mine write. -/
theorem Mining.Step.other {su : MiningSetup} {m m' : Mining} {a : Mining.Action} (h : Mining.Step su m a m')
    (ha : ∀ db, a ≠ .database db) (hdb : s.db = m.mem.db) :
    Signups.step verify s (.other m'.mem.db) = some (s.setDb m'.mem.db) := by
  refine Signups.step_other ?_
  rw [hdb]
  cases h with
  | main hstep =>
    rw [Mining.event_mem]
    generalize m.main = pc₀ at hstep
    cases hstep with
    | enterOp | discardOp => exact EpochOp.exec_keys ..
    | _ => rfl
  | watcher _ hstep =>
    cases hstep with
    | op => exact EpochOp.exec_keys ..
    | _ => rfl
  | handler _ hstep => cases hstep <;> rfl
  | payout _ hstep => exact (PayoutPc.step_sound hstep).keys
  | database => exact absurd rfl (ha _)
  | _ => rfl

end Keys

end BitzPool
