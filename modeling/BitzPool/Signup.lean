import BitzPool.Connections
import BitzPool.Epoch
import BitzPool.Steps
import BitzPool.Lib.Run

/-!
# Signing up

`signup_user_transaction` inserts a row into `miners`, reads it back for its id, reads the pool, and inserts a row into
`rewards`, in one transaction; `signupTransaction` has these statements one by one, each of which may fail, and
`signupUserTransaction` is what becomes of them when a failure rolls them all back (`signupUserStatements_eq`).

The handlers of websockets, `post_signup_v2` and `main` when it starts sign miners up, after a lookup of the pubkey that may
be out of date or may have failed.  `Signups` has any number of them at work on one database.  The two tables stay in step
(`signups_in_step`), which is all that the updates by `miner_id` rely on.
-/

namespace BitzPool

open Keyed Transition

/-! ### The transaction -/

inductive SignupStatement
  | insertMiner
  | selectMiner
  | selectPool
  | insertReward
  | commit
  deriving DecidableEq

/-- The result of a statement, unless it fails. -/
def attempt {β : Type} (fails : SignupStatement → Bool) (stmt : SignupStatement) (result : Option β) : Option β :=
  if fails stmt then none else result

/-- `INSERT INTO miners (pubkey, enabled) VALUES (?, TRUE)`, with the `AUTO_INCREMENT` value `id`. -/
def insertMiner (id : MinerId) (pubkey : Pubkey) (db : Database) : Option Database :=
  if hid : id ∈ db.miners.rows.map Miner.id then none
  else
    match hm : db.miners.insert? ⟨id, pubkey, true⟩ with
    | some miners => some { db with
        miners := miners
        idsUnique := db.nodup_ids_insert hid hm }
    | none => none

/-- `INSERT INTO rewards (miner_id, pool_id) VALUES (?, ?)`: the number of rows; the balance defaults to 0. -/
def insertReward (minerId : MinerId) (db : Database) : Option (ℕ × Database) :=
  (db.rewards.insert? ⟨minerId, 0⟩).map fun t => (1, { db with rewards := t })

/-- The statements of the transaction; a failure (`none`) rolls it back. -/
def signupTransaction (fails : SignupStatement → Bool) (id : MinerId) (pubkey : Pubkey) (db : Database) :
    Option (ℕ × Database) := do
  let db₁ ← attempt fails .insertMiner (insertMiner id pubkey db)
  let miner ← attempt fails .selectMiner (db₁.miners.find? pubkey)
  let _ ← attempt fails .selectPool db₁.pool
  let x ← attempt fails .insertReward (insertReward miner.id db₁)
  attempt fails .commit (some x)

/-- `signup_user_transaction`, statement by statement. -/
def signupUserStatements (o : CallOutcome) (fails : SignupStatement → Bool) (id : MinerId) (pubkey : Pubkey)
    (db : Database) : Except AppDatabaseError Unit × Database :=
  expectRows (· != 0) .failedToInsertRow (interact o (signupTransaction fails id pubkey) db)

theorem insertMiner_none {id : MinerId} {pubkey : Pubkey} {db : Database}
    (hm : db.miners.insert? ⟨id, pubkey, true⟩ = none) : insertMiner id pubkey db = none := by
  unfold insertMiner
  split
  · rfl
  · split
    · next miners hsome =>
      rw [hm] at hsome
      cases hsome
    · rfl

theorem insertMiner_some {id : MinerId} {pubkey : Pubkey} {db : Database} {miners : Table Miner.pubkey}
    (hid : id ∉ db.miners.rows.map Miner.id) (hm : db.miners.insert? ⟨id, pubkey, true⟩ = some miners) :
    ∃ hunique, insertMiner id pubkey db = some { db with miners := miners, idsUnique := hunique } := by
  refine ⟨db.nodup_ids_insert hid hm, ?_⟩
  unfold insertMiner
  rw [dif_neg hid]
  split
  · next miners' hsome =>
    rw [hm] at hsome
    cases hsome
    rfl
  · next hnone =>
    rw [hm] at hnone
    cases hnone

/-- The row that was inserted is the one that is read back. -/
theorem signupQuery_eq (id : MinerId) (pubkey : Pubkey) (db : Database) :
    signupQuery id pubkey db = (signupTransaction (fun _ => false) id pubkey db).map fun x => ((), x.2) := by
  unfold signupQuery signupTransaction
  split
  · next hid => simp [attempt, insertMiner, hid]
  · next hid =>
    split
    · next hm => simp [attempt, insertMiner_none hm]
    · next miners hm =>
      obtain ⟨hunique, hinsert⟩ := insertMiner_some hid hm
      have hfind : miners.find? pubkey = some ⟨id, pubkey, true⟩ := by rw [Table.find?_insert hm, if_pos rfl]
      rcases hpool : db.pool with _ | pool
      · simp [attempt, hinsert, hfind, hpool]
      · rcases hr : db.rewards.insert? ⟨id, 0⟩ with _ | rewards <;>
          simp [attempt, hinsert, hfind, hpool, insertReward, hr]

theorem signupTransaction_cases (fails : SignupStatement → Bool) (id : MinerId) (pubkey : Pubkey) (db : Database) :
    signupTransaction fails id pubkey db = none ∨
      signupTransaction fails id pubkey db = signupTransaction (fun _ => false) id pubkey db := by
  by_cases h : ∃ stmt, fails stmt = true
  · obtain ⟨stmt, hstmt⟩ := h
    refine Or.inl ?_
    cases stmt <;> simp [signupTransaction, attempt, hstmt]
  · have hnone : fails = fun _ => false := by
      funext stmt
      exact Bool.eq_false_of_not_eq_true fun hstmt => h ⟨stmt, hstmt⟩
    exact Or.inr (by rw [hnone])

theorem signupTransaction_rows {fails : SignupStatement → Bool} {id : MinerId} {pubkey : Pubkey} {db db' : Database}
    {n : ℕ} (h : signupTransaction fails id pubkey db = some (n, db')) : n = 1 := by
  have h : signupTransaction (fun _ => false) id pubkey db = some (n, db') := by
    rcases signupTransaction_cases fails id pubkey db with hnone | he
    · rw [hnone] at h
      cases h
    · rwa [← he]
  simp only [signupTransaction, attempt, Bool.false_eq_true, if_false, Option.bind_eq_bind, Option.bind_eq_some_iff] at h
  obtain ⟨db₁, -, miner, -, pool, -, x, hx, he⟩ := h
  obtain ⟨t, -, rfl⟩ := Option.map_eq_some_iff.1 hx
  cases he
  rfl

/-- Wherever a statement fails, the call ends like one whose transaction fails as a whole. -/
theorem signupUserStatements_eq (o : CallOutcome) (fails : SignupStatement → Bool) (id : MinerId) (pubkey : Pubkey)
    (db : Database) : ∃ o', signupUserStatements o fails id pubkey db = signupUserTransaction o' id pubkey db := by
  cases o with
  | noConnection => exact ⟨.noConnection, rfl⟩
  | interactError => exact ⟨.interactError, rfl⟩
  | sqlError => exact ⟨.sqlError, rfl⟩
  | executed =>
    rcases h : signupTransaction fails id pubkey db with _ | ⟨n, db'⟩
    · refine ⟨.sqlError, ?_⟩
      simp [signupUserStatements, signupUserTransaction, interact, h, expectRows]
    · have hn : n = 1 := signupTransaction_rows h
      have hquery : signupQuery id pubkey db = some ((), db') := by
        rcases signupTransaction_cases fails id pubkey db with hnone | he
        · rw [hnone] at h
          cases h
        · rw [signupQuery_eq, ← he, h]
          rfl
      refine ⟨.executed, ?_⟩
      simp [signupUserStatements, signupUserTransaction, interact, h, hquery, expectRows, hn]

/-! ### Miners and rewards in step -/

/-- Every miner has a balance, and every balance a miner. -/
structure Database.InStep (db : Database) : Prop where
  reward : ∀ m ∈ db.miners.rows, db.rewards.Has m.id
  miner : ∀ r ∈ db.rewards.rows, ∃ m ∈ db.miners.rows, m.id = r.minerId

/-- The number of rows of `rewards` that an update by `miner_id` addresses. -/
def Database.addressed (db : Database) (id : MinerId) : ℕ := (db.rewards.rows.filter fun r => r.minerId = id).length

theorem Database.InStep.addressed {db : Database} (h : db.InStep) {m : Miner} (hm : m ∈ db.miners.rows) :
    db.addressed m.id = 1 := by
  obtain ⟨r, hr⟩ := Table.has_iff.1 (h.reward m hm)
  rw [Database.addressed, Table.filter_of_find? hr]
  rfl

/-- A sign-up adds the two rows of a new miner. -/
theorem signupQuery_rows {id : MinerId} {pubkey : Pubkey} {db db' : Database} {x : Unit}
    (h : signupQuery id pubkey db = some (x, db')) :
    ¬ db.miners.Has pubkey ∧ db'.miners.rows = db.miners.rows ++ [⟨id, pubkey, true⟩] ∧
      db'.rewards.rows = db.rewards.rows ++ [⟨id, 0⟩] := by
  obtain ⟨miners, hunique, rewards, hm, hr, rfl⟩ := signupQuery_eq_some h
  obtain ⟨hhas, hrows⟩ := Table.insert?_eq_some hm
  exact ⟨hhas, hrows, (Table.insert?_eq_some hr).2⟩

/-- A new pubkey with a new id can sign up once there is a pool. -/
theorem signupQuery_some {id : MinerId} {pubkey : Pubkey} {db : Database} (hstep : db.InStep)
    (hid : id ∉ db.miners.rows.map Miner.id) (hpool : db.pool.isSome) (hhas : ¬ db.miners.Has pubkey) :
    ∃ db', signupQuery id pubkey db = some ((), db') := by
  obtain ⟨miners, hm⟩ : ∃ miners, db.miners.insert? ⟨id, pubkey, true⟩ = some miners :=
    Option.isSome_iff_exists.1 (Table.insert?_isSome.2 hhas)
  have hfree : ¬ db.rewards.Has id := by
    intro hr
    obtain ⟨r, hmem, hrid⟩ := List.mem_map.1 hr
    obtain ⟨m, hm', hmid⟩ := hstep.miner r hmem
    exact hid (List.mem_map.2 ⟨m, hm', hmid.trans hrid⟩)
  obtain ⟨rewards, hr⟩ : ∃ rewards, db.rewards.insert? ⟨id, 0⟩ = some rewards :=
    Option.isSome_iff_exists.1 (Table.insert?_isSome.2 hfree)
  obtain ⟨pool, hpool⟩ := Option.isSome_iff_exists.1 hpool
  unfold signupQuery
  rw [dif_neg hid]
  split
  · next hnone =>
    rw [hm] at hnone
    cases hnone
  · rw [hpool, hr]
    exact ⟨_, rfl⟩

theorem Database.InStep.signup {id : MinerId} {pubkey : Pubkey} {db db' : Database} {x : Unit} (hs : db.InStep)
    (h : signupQuery id pubkey db = some (x, db')) : db'.InStep := by
  obtain ⟨-, hminers, hrewards⟩ := signupQuery_rows h
  have hhas : ∀ id', db'.rewards.Has id' ↔ db.rewards.Has id' ∨ id' = id := by
    intro id'
    simp [Table.Has, hrewards]
  refine ⟨fun m hm => ?_, fun r hr => ?_⟩
  · rw [hminers] at hm
    rcases List.mem_append.1 hm with hm | hm
    · exact (hhas _).2 (Or.inl (hs.reward m hm))
    · rw [List.mem_singleton.1 hm]
      exact (hhas _).2 (Or.inr rfl)
  · rw [hrewards] at hr
    rw [hminers]
    rcases List.mem_append.1 hr with hr | hr
    · obtain ⟨m, hm, hid⟩ := hs.miner r hr
      exact ⟨m, List.mem_append_left _ hm, hid⟩
    · rw [List.mem_singleton.1 hr]
      exact ⟨⟨id, pubkey, true⟩, by simp, rfl⟩

theorem Database.InStep.signupUserTransaction {db : Database} (hs : db.InStep) (o : CallOutcome) (id : MinerId)
    (pubkey : Pubkey) : (BitzPool.signupUserTransaction o id pubkey db).2.InStep := by
  unfold BitzPool.signupUserTransaction
  rcases interact_cases o (signupQuery id pubkey) db with ⟨e, he⟩ | ⟨x, db', -, hq, he⟩
  · rw [he]
    exact hs
  · rw [he]
    exact hs.signup hq

/-! ### The other statements -/

/-- The miners, and whose balances there are. -/
def Database.keys (db : Database) : List Miner × List MinerId := (db.miners.rows, db.rewards.rows.map Reward.minerId)

theorem Database.InStep.of_keys {db db' : Database} (hs : db.InStep) (h : db'.keys = db.keys) : db'.InStep := by
  obtain ⟨hminers, hrewards⟩ := Prod.mk.inj h
  have hhas : ∀ id, db'.rewards.Has id ↔ db.rewards.Has id := by
    intro id
    rw [Table.Has, Table.Has, hrewards]
  refine ⟨fun m hm => (hhas _).2 (hs.reward m (hminers ▸ hm)), fun r hr => ?_⟩
  obtain ⟨r', hr', hid⟩ := List.mem_map.1 ((hhas _).1 (List.mem_map_of_mem hr))
  obtain ⟨m, hm, hmid⟩ := hs.miner r' hr'
  exact ⟨m, hminers ▸ hm, hmid.trans hid⟩

theorem Database.SameLedger.keys {db db' : Database} (h : db.SameLedger db') : db'.keys = db.keys := by
  rw [Database.keys, Database.keys, h.miners, h.rewards]

theorem decreaseQuery_keys {u : UpdateReward} {db db' : Database} {x : Unit} (h : decreaseQuery u db = some (x, db')) :
    db'.keys = db.keys := by
  unfold decreaseQuery at h
  split at h
  · cases h
    rfl
  · split at h <;> cases h
    exact congrArg (Prod.mk _) (Table.map_key_update _ fun r => by split <;> rfl)

theorem updateRewards_keys {o : CallOutcome} {batch : List UpdateReward} {db db' : Database}
    (h : updateRewards o batch db = (.ok (), db')) : db'.keys = db.keys := by
  rcases updateRewards_ok h with ⟨-, rfl⟩ | ⟨-, hq⟩
  · rfl
  · unfold updateRewardsQuery at hq
    split at hq <;> cases hq
    exact congrArg (Prod.mk _) (Table.map_key_update _ (by intro r; rfl))

theorem PayoutStep.keys {cfg : Config} {r : Round} {db db' : Database} {i : PayoutInput} {pc pc' : PayoutPc}
    {msgs : List MessageInternalMineSuccess} (h : PayoutStep cfg r db i pc db' pc' msgs) : db'.keys = db.keys := by
  cases h with
  | other hledger => exact hledger.keys
  | credit hcredit => exact updateRewards_keys hcredit
  | send => rfl

theorem MineStep.keys {o : CallOutcome} {db db' : Database} {t t' : MineTask} (h : MineStep o db t db' t') :
    db'.keys = db.keys := by
  cases h with
  | stuck | earnings => rfl
  | other hledger => exact hledger.keys
  | credit hcredit => exact updateRewards_keys hcredit
  | pool hpool => rcases updatePoolRewards_ok hpool with ⟨-, rfl⟩ | ⟨p, p', -, -, -, rfl⟩ <;> rfl

theorem ClaimStep.keys {now : ℕ} {m m' : ClaimMemory} {i : ClaimInput} {pc pc' : ClaimPc}
    (h : ClaimStep now m i pc m' pc') : m'.db.keys = m.db.keys := by
  cases h with
  | decrease hquery => exact decreaseQuery_keys hquery
  | addTxn hledger => exact hledger.keys
  | _ => rfl

theorem EpochOp.exec_keys (op : EpochOp) (cfg : RowId) (o : CallOutcome) (m : EpochMemory) :
    (op.exec cfg o m).1.db.keys = m.db.keys := by
  cases op with
  | addChallenge c =>
    have hkeys := (addNewChallenge_sameLedger o ⟨cfg, c⟩ m.db).keys
    simp only [exec]
    split <;> next h => rwa [h] at hkeys
  | verifyChallenge c =>
    simp only [exec]
    split <;> rfl
  | _ => rfl

/-! ### The callers -/

/-- `post_signup_v2`, after its pubkey was parsed. -/
inductive PostSignupPc
  | getMiner
  | signup
  | answered (answer : Response)
  deriving DecidableEq

/-- The part of `main` that makes sure the receiver of the commissions has a row. -/
inductive StartupPc
  | getMiner
  | signup
  | getSignedUp
  | ready (commissionMinerId : MinerId)
  | panicked (text : String)
  deriving DecidableEq

inductive SignupInput
  | call (o : CallOutcome)
  | signup (o : CallOutcome) (id : MinerId)
  deriving DecidableEq

def PostSignupPc.step (pubkey : Pubkey) (db : Database) : SignupInput → PostSignupPc → Option (Database × PostSignupPc)
  | .call o, .getMiner =>
    match getMinerByPubkeyStr o pubkey db with
    | .ok miner => some (db, if miner.enabled then .answered ⟨200, "EXISTS"⟩ else .signup)
    | .error .failedToGetConnectionFromPool => some (db, .answered ⟨500, "Failed to get db pool connection"⟩)
    | .error _ => some (db, .signup)
  | .signup o id, .signup =>
    match signupUserTransaction o id pubkey db with
    | (.ok _, db') => some (db', .answered ⟨200, "SUCCESS"⟩)
    | (.error _, db') => some (db', .answered ⟨500, "Failed to add user to database"⟩)
  | _, _ => none

def StartupPc.step (pubkey : Pubkey) (db : Database) : SignupInput → StartupPc → Option (Database × StartupPc)
  | .call o, .getMiner =>
    match getMinerByPubkeyStr o pubkey db with
    | .ok miner => some (db, .ready miner.id)
    | .error _ => some (db, .signup)
  | .signup o id, .signup =>
    match signupUserTransaction o id pubkey db with
    | (.ok _, db') => some (db', .getSignedUp)
    | (.error _, db') => some (db', .panicked "Failed to insert comissions receiver account")
  | .call o, .getSignedUp =>
    match getMinerByPubkeyStr o pubkey db with
    | .ok miner => some (db, .ready miner.id)
    | .error _ => some (db, .panicked "Failed to get commission miner id")
  | _, _ => none

/-! ### The system -/

structure Signups where
  conns : Connections
  posts : List (Pubkey × PostSignupPc)
  startups : List (Pubkey × StartupPc)

namespace Signups

def db (s : Signups) : Database := s.conns.db

def setDb (s : Signups) (db : Database) : Signups := { s with conns.db := db }

/-- `other` is a statement of another task. -/
inductive Action
  | conns (a : Connections.Action)
  | post (pubkey : Pubkey)
  | postStep (k : ℕ) (input : SignupInput)
  | startup (pubkey : Pubkey)
  | startupStep (k : ℕ) (input : SignupInput)
  | other (db : Database)

/-- The `AUTO_INCREMENT` value that the action would use. -/
def Action.newId? : Action → Option MinerId
  | .conns (.requestStep _ (.signup _ id)) | .postStep _ (.signup _ id) | .startupStep _ (.signup _ id) => some id
  | _ => none

/-- No row has the id yet. -/
def freshId (db : Database) (id : MinerId) : Bool := id ∉ db.miners.rows.map Miner.id

def stepConns (verify : Verify) (s : Signups) : Connections.Action → Option Signups
  | .database _ => none
  | a => (s.conns.step verify a).map fun conns => { s with conns := conns }

def stepPost (s : Signups) (k : ℕ) (input : SignupInput) : Option Signups := do
  let t ← s.posts[k]?
  let (db, pc) ← t.2.step t.1 s.db input
  return { s.setDb db with posts := s.posts.set k (t.1, pc) }

def stepStartup (s : Signups) (k : ℕ) (input : SignupInput) : Option Signups := do
  let t ← s.startups[k]?
  let (db, pc) ← t.2.step t.1 s.db input
  return { s.setDb db with startups := s.startups.set k (t.1, pc) }

/-- A step; new ids are fresh, and the other tasks keep the keys. -/
def step (verify : Verify) (s : Signups) (a : Action) : Option Signups :=
  if a.newId?.all (freshId s.db) then
    match a with
    | .conns a => s.stepConns verify a
    | .post pubkey => some { s with posts := s.posts ++ [(pubkey, .getMiner)] }
    | .postStep k input => s.stepPost k input
    | .startup pubkey => some { s with startups := s.startups ++ [(pubkey, .getMiner)] }
    | .startupStep k input => s.stepStartup k input
    | .other db => if db.keys = s.db.keys then some (s.setDb db) else none
  else none

def start (db : Database) : Signups := ⟨.start db, [], []⟩

/-! ### Steps -/

end Signups

theorem WsPc.step_db {verify : Verify} {r : WsRequest} {m m' : WsMemory} {i : WsInput} {pc pc' : WsPc}
    (h : pc.step verify r m i = some (m', pc')) :
    m'.db = m.db ∨ ∃ o id, m'.db = (signupUserTransaction o id r.pubkey m.db).2 := by
  unfold WsPc.step at h
  split at h
  · split at h <;> cases h <;> exact Or.inl rfl
  · next o id =>
    refine Or.inr ⟨o, id, ?_⟩
    split at h <;> next he => cases h; rw [he]
  · split at h <;> cases h <;> exact Or.inl rfl
  · cases h
    exact Or.inl rfl
  · split at h <;> cases h <;> exact Or.inl rfl
  · cases h
    exact Or.inl rfl
  · cases h

theorem PostSignupPc.step_db {pubkey : Pubkey} {db db' : Database} {i : SignupInput} {pc pc' : PostSignupPc}
    (h : pc.step pubkey db i = some (db', pc')) :
    db' = db ∨ ∃ o id, db' = (signupUserTransaction o id pubkey db).2 := by
  unfold PostSignupPc.step at h
  split at h
  · split at h <;> cases h <;> exact Or.inl rfl
  · next o id =>
    refine Or.inr ⟨o, id, ?_⟩
    split at h <;> next he => cases h; rw [he]
  · cases h

theorem StartupPc.step_db {pubkey : Pubkey} {db db' : Database} {i : SignupInput} {pc pc' : StartupPc}
    (h : pc.step pubkey db i = some (db', pc')) :
    db' = db ∨ ∃ o id, db' = (signupUserTransaction o id pubkey db).2 := by
  unfold StartupPc.step at h
  split at h
  · split at h <;> cases h <;> exact Or.inl rfl
  · next o id =>
    refine Or.inr ⟨o, id, ?_⟩
    split at h <;> next he => cases h; rw [he]
  · split at h <;> cases h <;> exact Or.inl rfl
  · cases h

namespace Signups

variable {verify : Verify} {s s' : Signups} {a : Action}

/-- Miners and balances are added by sign-ups only. -/
theorem step_db (h : step verify s a = some s') :
    s'.db.keys = s.db.keys ∨ ∃ o id pubkey, s'.db = (signupUserTransaction o id pubkey s.db).2 := by
  unfold step at h
  split at h
  · cases a with
    | conns a =>
      cases a with
      | requestStep k input =>
        obtain ⟨conns, hstep, rfl⟩ := Option.map_eq_some_iff.1 h
        replace hstep : s.conns.stepRequest verify k input = some conns := hstep
        simp only [Connections.stepRequest, Option.bind_eq_bind, Option.bind_eq_some_iff, Option.pure_def,
          Option.some.injEq] at hstep
        obtain ⟨⟨r, pc⟩, -, ⟨m, pc'⟩, hpc, rfl⟩ := hstep
        rcases WsPc.step_db hpc with hdb | ⟨o, id, hdb⟩
        · exact Or.inl (congrArg Database.keys hdb)
        · exact Or.inr ⟨o, id, r.pubkey, hdb⟩
      | database db => cases h
      | tick | request | remove => cases h; exact Or.inl rfl
    | post | startup =>
      cases h
      exact Or.inl rfl
    | postStep k input =>
      simp only [stepPost, Option.bind_eq_bind, Option.bind_eq_some_iff, Option.pure_def, Option.some.injEq] at h
      obtain ⟨⟨pubkey, pc⟩, -, ⟨db, pc'⟩, hpc, rfl⟩ := h
      rcases PostSignupPc.step_db hpc with hdb | ⟨o, id, hdb⟩
      · exact Or.inl (congrArg Database.keys hdb)
      · exact Or.inr ⟨o, id, pubkey, hdb⟩
    | startupStep k input =>
      simp only [stepStartup, Option.bind_eq_bind, Option.bind_eq_some_iff, Option.pure_def, Option.some.injEq] at h
      obtain ⟨⟨pubkey, pc⟩, -, ⟨db, pc'⟩, hpc, rfl⟩ := h
      rcases StartupPc.step_db hpc with hdb | ⟨o, id, hdb⟩
      · exact Or.inl (congrArg Database.keys hdb)
      · exact Or.inr ⟨o, id, pubkey, hdb⟩
    | other db =>
      dsimp only at h
      split at h <;> cases h
      next hkeys => exact Or.inl hkeys
  · cases h

theorem InStep.step (hs : s.db.InStep) (h : step verify s a = some s') : s'.db.InStep := by
  rcases step_db h with hkeys | ⟨o, id, pubkey, hdb⟩
  · exact hs.of_keys hkeys
  · rw [hdb]
    exact hs.signupUserTransaction o id pubkey

/-- In every run of the callers every miner has exactly one balance, every balance belongs to a miner, and no two miners
share a pubkey; a call keeps it so wherever it fails, and changes nothing when it returns an error. -/
theorem signups_in_step (verify : Verify) {s₀ s : Signups} {as : List Action} (h0 : s₀.db.InStep)
    (h : run (step verify) s₀ as = some s) :
    (∀ m ∈ s.db.miners.rows, s.db.addressed m.id = 1) ∧
      (∀ r ∈ s.db.rewards.rows, ∃ m ∈ s.db.miners.rows, m.id = r.minerId) ∧
      (s.db.miners.rows.map Miner.pubkey).Nodup ∧
      ∀ o fails id pubkey, (signupUserStatements o fails id pubkey s.db).2.InStep ∧
        ∀ e, (signupUserStatements o fails id pubkey s.db).1 = .error e →
          (signupUserStatements o fails id pubkey s.db).2.miners = s.db.miners ∧
            (signupUserStatements o fails id pubkey s.db).2.rewards = s.db.rewards := by
  have hs : s.db.InStep := run_invariant' (I := fun s : Signups => s.db.InStep) InStep.step h0 h
  refine ⟨fun m hm => hs.addressed hm, hs.miner, s.db.miners.unique, fun o fails id pubkey => ?_⟩
  obtain ⟨o', ho'⟩ := signupUserStatements_eq o fails id pubkey s.db
  rw [ho']
  refine ⟨hs.signupUserTransaction o' id pubkey, fun e he => ?_⟩
  have hdb : (signupUserTransaction o' id pubkey s.db).2 = s.db := interact_error (Prod.ext he rfl)
  rw [hdb]
  exact ⟨rfl, rfl⟩

/-- A database with a pool and without miners. -/
def exampleEmpty : Database := { Database.single (filled 7) 0 with
  miners := ∅
  idsUnique := by simp [EmptyCollection.emptyCollection]
  rewards := ∅ }

/-- Two requests to sign the same miner up, both of which find it missing. -/
def exampleRace : List Action :=
  [.startup (filled 7), .startupStep 0 (.call .executed), .startupStep 0 (.signup .executed 1),
    .post (filled 8), .post (filled 8), .postStep 0 (.call .executed), .postStep 1 (.call .executed),
    .postStep 1 (.signup .executed 2), .postStep 0 (.signup .executed 3)]

theorem signups_in_step_example :
    ∃ s, run (step fun _ _ _ => true) (start exampleEmpty) exampleRace = some s ∧
      s.db.keys = ([⟨1, filled 7, true⟩, ⟨2, filled 8, true⟩], [1, 2]) ∧
      s.posts.map Prod.snd = [.answered ⟨500, "Failed to add user to database"⟩, .answered ⟨200, "SUCCESS"⟩] ∧
      ∀ m ∈ s.db.miners.rows, s.db.addressed m.id = 1 := by
  obtain ⟨s, h, hkeys, hposts⟩ : ∃ s, run (step fun _ _ _ => true) (start exampleEmpty) exampleRace = some s ∧
      s.db.keys = ([⟨1, filled 7, true⟩, ⟨2, filled 8, true⟩], [1, 2]) ∧
      s.posts.map Prod.snd = [.answered ⟨500, "Failed to add user to database"⟩, .answered ⟨200, "SUCCESS"⟩] :=
    exists_of_run (by decide +kernel)
  have h0 : (start exampleEmpty).db.InStep := by
    constructor
    · intro m hm
      cases hm
    · intro r hr
      cases hr
  exact ⟨s, h, hkeys, hposts, (signups_in_step _ h0 h).1⟩

end Signups

end BitzPool
