import BitzPool.Signup

/-!
# Starting the server

Before `main` spawns its tasks it validates that the database has what they rely on: the row of the pool, the receiver of
the commissions with a balance, and the row of the current challenge.  Every call may fail; some failures end the
process, others are taken for a missing row, which is then inserted.  `Startup` has `main` at work on the database,
started again wherever it has ended or been stopped.

When `main` gets to spawning, everything is there (`spawns_validated`), nothing but missing rows was added, and the pool
has got no second row unless the lookup of the one it has failed; and however often it was stopped, a start whose calls are
executed gets there (`restart_recovers`).
-/

namespace BitzPool

open Keyed Transition

/-! ### `main` up to the tasks -/

/-- The database, with further rows of `pools` that have the key of the wallet: a lookup returns the first row. -/
structure StartupMemory where
  db : Database
  more : List Pool

/-- What `main` has when it validates: the receiver of the commissions, and the proof it has loaded. -/
structure StartupEnv where
  commissionPubkey : Pubkey
  proof : Proof
  deriving DecidableEq

/-- A row of `pools` whose rewards default to 0; the key of the wallet need not be unique. -/
def StartupMemory.insertPool (id : RowId) (m : StartupMemory) : StartupMemory :=
  match m.db.pool with
  | none => { m with db := { m.db with pool := some ⟨id, 0, 0⟩ } }
  | some _ => { m with more := m.more ++ [⟨id, 0, 0⟩] }

/-- `INSERT INTO pools (authority_pubkey, proof_pubkey)`, with the `AUTO_INCREMENT` value `id`. -/
def addNewPool (o : CallOutcome) (id : RowId) (m : StartupMemory) : Except AppDatabaseError Unit × StartupMemory :=
  match expectRows (· == 1) .failedToInsertRow (interact o (fun db => some (1, db)) m.db) with
  | (.ok _, _) => (.ok (), m.insertPool id)
  | (.error e, _) => (.error e, m)

/-- `spawn` is where the tasks are spawned, with the ids of the validated rows in their `Config`. -/
inductive ValidationPc
  | getPool
  | addPool
  | commissions (pc : StartupPc)
  | getPoolId (commissionMinerId : MinerId)
  | getChallenge (config : Config)
  | addChallenge (config : Config)
  | spawn (config : Config)
  | panicked (text : String)
  deriving DecidableEq

inductive ValidationInput
  | call (o : CallOutcome)
  | insertPool (o : CallOutcome) (id : RowId)
  | signup (o : CallOutcome) (id : MinerId)
  deriving DecidableEq

/-- What follows when the receiver of the commissions is validated. -/
def StartupPc.next : StartupPc → ValidationPc
  | .ready commissionMinerId => .getPoolId commissionMinerId
  | .panicked text => .panicked text
  | pc => .commissions pc

def ValidationPc.step (env : StartupEnv) (m : StartupMemory) :
    ValidationInput → ValidationPc → Option (StartupMemory × ValidationPc)
  | .call o, .getPool =>
    match getPoolByAuthorityPubkey o m.db with
    | .ok _ => some (m, .commissions .getMiner)
    | .error .failedToGetConnectionFromPool => some (m, .panicked "Failed to get database pool connection")
    | .error _ => some (m, .addPool)
  | .insertPool o id, .addPool =>
    match addNewPool o id m with
    | (.ok _, m') => some (m', .commissions .getMiner)
    | (.error _, m') => some (m', .panicked "Failed to create pool in database")
  | .call o, .commissions pc =>
    (pc.step env.commissionPubkey m.db (.call o)).map fun x => ({ m with db := x.1 }, x.2.next)
  | .signup o id, .commissions pc =>
    (pc.step env.commissionPubkey m.db (.signup o id)).map fun x => ({ m with db := x.1 }, x.2.next)
  | .call o, .getPoolId commissionMinerId =>
    match getPoolByAuthorityPubkey o m.db with
    | .ok pool => some (m, .getChallenge ⟨pool.id, commissionMinerId⟩)
    | .error _ => some (m, .panicked "called Result::unwrap() on an Err value")
  | .call o, .getChallenge config =>
    match getChallengeByChallenge o env.proof.challenge m.db with
    | .ok _ => some (m, .spawn config)
    | .error .failedToGetConnectionFromPool => some (m, .panicked "Failed to get database pool connection")
    | .error _ => some (m, .addChallenge config)
  | .call o, .addChallenge config =>
    match addNewChallenge o ⟨config.poolId, env.proof.challenge⟩ m.db with
    | (.ok _, db) => some ({ m with db := db }, .spawn config)
    | (.error _, db) => some ({ m with db := db }, .panicked "Failed to create challenge in database")
  | _, _ => none

/-! ### The system -/

structure Startup where
  env : StartupEnv
  mem : StartupMemory
  pc : ValidationPc

namespace Startup

/-- `restart` ends the process, wherever it is, and starts it again. -/
inductive Action
  | validate (input : ValidationInput)
  | restart (env : StartupEnv)
  deriving DecidableEq

def step (s : Startup) : Action → Option Startup
  | .validate input => (s.pc.step s.env s.mem input).map fun x => ⟨s.env, x.1, x.2⟩
  | .restart env => some ⟨env, s.mem, .getPool⟩

def start (env : StartupEnv) (db : Database) : Startup := ⟨env, ⟨db, []⟩, .getPool⟩

end Startup

/-! ### What a step can do -/

theorem addNewPool_ok {o : CallOutcome} {id : RowId} {m m' : StartupMemory} (h : addNewPool o id m = (.ok (), m')) :
    o = .executed ∧ m' = m.insertPool id := by
  unfold addNewPool at h
  split at h
  · next db he =>
    obtain ⟨n, -, hcall⟩ := expectRows_ok he
    cases h
    exact ⟨(interact_ok hcall).1, rfl⟩
  · cases h

theorem addNewPool_error {o : CallOutcome} {id : RowId} {m m' : StartupMemory} {e : AppDatabaseError}
    (h : addNewPool o id m = (.error e, m')) : m' = m := by
  unfold addNewPool at h
  split at h <;> cases h
  rfl

theorem StartupMemory.insertPool_db (id : RowId) (m : StartupMemory) :
    m.db.pool = none ∧ m.insertPool id = { m with db := { m.db with pool := some ⟨id, 0, 0⟩ } } ∨
      (∃ p, m.db.pool = some p) ∧ m.insertPool id = { m with more := m.more ++ [⟨id, 0, 0⟩] } := by
  unfold insertPool
  split
  · next h => exact Or.inl ⟨h, rfl⟩
  · next p h => exact Or.inr ⟨⟨p, h⟩, rfl⟩

/-- A step of `main`: it reads, inserts one of the rows, or gives up. -/
inductive ValidationStep (env : StartupEnv) (m : StartupMemory) :
    ValidationInput → ValidationPc → StartupMemory → ValidationPc → Prop
  | foundPool {o : CallOutcome} {p : Pool} : m.db.pool = some p →
      ValidationStep env m (.call o) .getPool m (.commissions .getMiner)
  | missedPool {o : CallOutcome} {e : AppDatabaseError} :
      getPoolByAuthorityPubkey o m.db = .error e → e ≠ .failedToGetConnectionFromPool →
      ValidationStep env m (.call o) .getPool m .addPool
  | addPool {id : RowId} :
      ValidationStep env m (.insertPool .executed id) .addPool (m.insertPool id) (.commissions .getMiner)
  | foundMiner {o : CallOutcome} {pc : StartupPc} {miner : Miner} :
      m.db.miners.find? env.commissionPubkey = some miner →
      ValidationStep env m (.call o) (.commissions pc) m (.getPoolId miner.id)
  | missedMiner {o : CallOutcome} :
      ValidationStep env m (.call o) (.commissions .getMiner) m (.commissions .signup)
  | signup {id : MinerId} {db : Database} : signupQuery id env.commissionPubkey m.db = some ((), db) →
      ValidationStep env m (.signup .executed id) (.commissions .signup) { m with db := db } (.commissions .getSignedUp)
  | poolId {o : CallOutcome} {commissionMinerId : MinerId} {p : Pool} : m.db.pool = some p →
      ValidationStep env m (.call o) (.getPoolId commissionMinerId) m (.getChallenge ⟨p.id, commissionMinerId⟩)
  | foundChallenge {o : CallOutcome} {config : Config} {row : ChallengeRow} :
      m.db.challenges.find? env.proof.challenge = some row →
      ValidationStep env m (.call o) (.getChallenge config) m (.spawn config)
  | missedChallenge {o : CallOutcome} {config : Config} :
      ValidationStep env m (.call o) (.getChallenge config) m (.addChallenge config)
  | addChallenge {config : Config} {db : Database} :
      addNewChallenge .executed ⟨config.poolId, env.proof.challenge⟩ m.db = (.ok (), db) →
      ValidationStep env m (.call .executed) (.addChallenge config) { m with db := db } (.spawn config)
  | panic {i : ValidationInput} {pc : ValidationPc} {text : String} : ValidationStep env m i pc m (.panicked text)

private theorem startup_sound {env : StartupEnv} {m : StartupMemory} {db : Database} {i : SignupInput}
    {pc pc' : StartupPc} (h : pc.step env.commissionPubkey m.db i = some (db, pc')) :
    (∃ o, i = .call o ∧ ValidationStep env m (.call o) (.commissions pc) { m with db := db } pc'.next) ∨
      ∃ o id, i = .signup o id ∧ ValidationStep env m (.signup o id) (.commissions pc) { m with db := db } pc'.next := by
  unfold StartupPc.step at h
  split at h
  · next o =>
    refine Or.inl ⟨o, rfl, ?_⟩
    split at h
    · next he =>
      cases h
      exact .foundMiner (query_ok he)
    · cases h
      exact .missedMiner
  · next o id =>
    refine Or.inr ⟨o, id, rfl, ?_⟩
    split at h
    · next x db' he =>
      cases h
      obtain ⟨rfl, hq⟩ := interact_ok he
      exact .signup hq
    · next e db' he =>
      cases h
      rw [interact_error he]
      exact .panic
  · next o =>
    refine Or.inl ⟨o, rfl, ?_⟩
    split at h
    · next he =>
      cases h
      exact .foundMiner (query_ok he)
    · cases h
      exact .panic
  · cases h

theorem ValidationPc.step_sound {env : StartupEnv} {m m' : StartupMemory} {i : ValidationInput} {pc pc' : ValidationPc}
    (h : pc.step env m i = some (m', pc')) : ValidationStep env m i pc m' pc' := by
  unfold ValidationPc.step at h
  split at h
  · split at h
    · next he =>
      cases h
      exact .foundPool (query_ok he)
    · cases h
      exact .panic
    · next e hne he =>
      cases h
      exact .missedPool he hne
  · split at h
    · next x m₁ he =>
      cases h
      obtain ⟨rfl, rfl⟩ := addNewPool_ok he
      exact .addPool
    · next e m₁ he =>
      cases h
      rw [addNewPool_error he]
      exact .panic
  · obtain ⟨x, hx, he⟩ := Option.map_eq_some_iff.1 h
    cases he
    obtain ⟨o, ho, hstep⟩ | ⟨o, id, ho, -⟩ := startup_sound hx <;> cases ho
    exact hstep
  · obtain ⟨x, hx, he⟩ := Option.map_eq_some_iff.1 h
    cases he
    obtain ⟨o, ho, -⟩ | ⟨o, id, ho, hstep⟩ := startup_sound hx <;> cases ho
    exact hstep
  · split at h
    · next he =>
      cases h
      exact .poolId (query_ok he)
    · cases h
      exact .panic
  · split at h
    · next he =>
      cases h
      exact .foundChallenge (query_ok he)
    · cases h
      exact .panic
    · cases h
      exact .missedChallenge
  · split at h
    · next x db he =>
      cases h
      obtain ⟨rfl, -⟩ := interact_ok he
      exact .addChallenge he
    · next e db he =>
      cases h
      rw [interact_error he]
      exact .panic
  · cases h

/-! ### What is there already -/

/-- Only rows were added: of miners, with balances of 0, of challenges, and that of the pool if it was missing.  Nothing was
credited or debited. -/
structure Database.Adds (db db' : Database) : Prop where
  miners : db.miners.rows <+: db'.miners.rows
  rewards : ∃ new, db'.rewards.rows = db.rewards.rows ++ new ∧ ∀ r ∈ new, r.balance = 0
  pool : ∀ p, db.pool = some p → db'.pool = some p
  challenges : db.challenges.rows <+: db'.challenges.rows
  earnings : db'.earnings = db.earnings
  submissions : db'.submissions = db.submissions
  txns : db'.txns = db.txns
  claims : db'.claims = db.claims
  credits : db'.credits = db.credits
  debits : db'.debits = db.debits

namespace Database

variable {db db' db'' : Database}

theorem Adds.refl (db : Database) : db.Adds db :=
  ⟨List.prefix_refl _, ⟨[], by simp⟩, fun _ h => h, List.prefix_refl _, rfl, rfl, rfl, rfl, rfl, rfl⟩

theorem Adds.trans (h : db.Adds db') (h' : db'.Adds db'') : db.Adds db'' := by
  obtain ⟨new, hnew, hzero⟩ := h.rewards
  obtain ⟨new', hnew', hzero'⟩ := h'.rewards
  refine ⟨h.miners.trans h'.miners, ⟨new ++ new', ?_, fun r hr => ?_⟩, fun p hp => h'.pool p (h.pool p hp),
    h.challenges.trans h'.challenges, h'.earnings.trans h.earnings, h'.submissions.trans h.submissions,
    h'.txns.trans h.txns, h'.claims.trans h.claims, h'.credits.trans h.credits, h'.debits.trans h.debits⟩
  · rw [hnew', hnew, List.append_assoc]
  · rcases List.mem_append.1 hr with hr | hr
    · exact hzero r hr
    · exact hzero' r hr

theorem Adds.miner (h : db.Adds db') {pubkey : Pubkey} {m : Miner} (hm : db.miners.find? pubkey = some m) :
    db'.miners.find? pubkey = some m := by
  obtain ⟨hmem, hkey⟩ := Table.find?_eq_some.1 hm
  exact Table.find?_eq_some.2 ⟨h.miners.subset hmem, hkey⟩

/-- A miner keeps its balance; a new one has 0. -/
theorem Adds.balance (h : db.Adds db') (id : MinerId) : db'.balance id = db.balance id := by
  obtain ⟨new, hnew, hzero⟩ := h.rewards
  by_cases hid : db.rewards.Has id
  · obtain ⟨r, hr⟩ := Table.has_iff.1 hid
    obtain ⟨hmem, hkey⟩ := Table.find?_eq_some.1 hr
    have hr' : db'.rewards.find? id = some r :=
      Table.find?_eq_some.2 ⟨by rw [hnew]; exact List.mem_append_left _ hmem, hkey⟩
    rw [Database.balance, Database.balance, Table.value_of_find? hr, Table.value_of_find? hr']
  · rw [Database.balance, Database.balance, Table.value_of_not_has hid]
    by_cases hid' : db'.rewards.Has id
    · obtain ⟨r, hr⟩ := Table.has_iff.1 hid'
      obtain ⟨hmem, hkey⟩ := Table.find?_eq_some.1 hr
      have hzero : r.balance = 0 := by
        rw [hnew] at hmem
        rcases List.mem_append.1 hmem with hmem | hmem
        · exact absurd (List.mem_map.2 ⟨r, hmem, hkey⟩) hid
        · exact hzero r hmem
      rw [Table.value_of_find? hr, hzero]
      rfl
    · rw [Table.value_of_not_has hid']

/-- What `main` has validated when it spawns the tasks. -/
structure Validated (db : Database) (env : StartupEnv) (config : Config) : Prop where
  pool : ∃ p, db.pool = some p ∧ p.id = config.poolId
  miner : ∃ m, db.miners.find? env.commissionPubkey = some m ∧ m.id = config.commissionsMinerId
  challenge : db.challenges.Has env.proof.challenge

theorem Adds.signup {id : MinerId} {pubkey : Pubkey} {x : Unit} (h : signupQuery id pubkey db = some (x, db')) :
    db.Adds db' := by
  obtain ⟨-, hminers, hrewards⟩ := signupQuery_rows h
  obtain ⟨miners, hunique, rewards, -, -, rfl⟩ := signupQuery_eq_some h
  refine ⟨⟨_, hminers.symm⟩, ⟨_, hrewards, ?_⟩, fun _ hp => hp, List.prefix_refl _, rfl, rfl, rfl, rfl, rfl, rfl⟩
  intro r hr
  rw [List.mem_singleton.1 hr]

theorem Adds.challenge {c : InsertChallenge} {x : Unit} (h : addNewChallenge .executed c db = (.ok x, db')) :
    db.Adds db' ∧ db'.challenges.Has c.challenge := by
  obtain ⟨-, hq⟩ := interact_ok h
  obtain ⟨t, ht, he⟩ := Option.map_eq_some_iff.1 hq
  cases he
  refine ⟨⟨List.prefix_refl _, ⟨[], by simp⟩, fun _ hp => hp, ⟨_, (Table.insert?_eq_some ht).2.symm⟩, rfl, rfl, rfl, rfl,
    rfl, rfl⟩, ?_⟩
  exact (Table.has_insert ht _).2 (Or.inl rfl)

end Database

theorem StartupMemory.insertPool_adds (id : RowId) (m : StartupMemory) : m.db.Adds (m.insertPool id).db := by
  rcases m.insertPool_db id with ⟨hnone, he⟩ | ⟨-, he⟩
  · rw [he]
    refine ⟨List.prefix_refl _, ⟨[], by simp⟩, fun p hp => ?_, List.prefix_refl _, rfl, rfl, rfl, rfl, rfl, rfl⟩
    rw [hnone] at hp
    cases hp
  · rw [he]
    exact .refl _

section

variable {env : StartupEnv} {m m' : StartupMemory} {i : ValidationInput} {pc pc' : ValidationPc}

theorem ValidationStep.adds (h : ValidationStep env m i pc m' pc') : m.db.Adds m'.db := by
  cases h with
  | addPool => exact m.insertPool_adds _
  | signup hq => exact .signup hq
  | addChallenge hadd => exact (Database.Adds.challenge hadd).1
  | _ => exact .refl _

theorem ValidationStep.inStep (h : ValidationStep env m i pc m' pc') (hm : m.db.InStep) : m'.db.InStep := by
  cases h with
  | @addPool id =>
    refine hm.of_keys ?_
    rcases m.insertPool_db id with ⟨-, he⟩ | ⟨-, he⟩
    · rw [he]
      rfl
    · rw [he]
  | signup hq => exact hm.signup hq
  | @addChallenge config db hadd =>
    have hledger := addNewChallenge_sameLedger .executed ⟨config.poolId, env.proof.challenge⟩ m.db
    rw [hadd] at hledger
    exact hm.of_keys hledger.keys
  | _ => exact hm

/-- What has been validated so far. -/
def ValidationPc.Passed (env : StartupEnv) (db : Database) : ValidationPc → Prop
  | .getPoolId commissionMinerId => ∃ m, db.miners.find? env.commissionPubkey = some m ∧ m.id = commissionMinerId
  | .getChallenge config | .addChallenge config =>
    (∃ p, db.pool = some p ∧ p.id = config.poolId) ∧
      ∃ m, db.miners.find? env.commissionPubkey = some m ∧ m.id = config.commissionsMinerId
  | .spawn config => db.Validated env config
  | _ => True

theorem ValidationStep.passed (h : ValidationStep env m i pc m' pc') (hpc : pc.Passed env m.db) : pc'.Passed env m'.db := by
  cases h with
  | foundMiner hfind => exact ⟨_, hfind, rfl⟩
  | poolId hpool => exact ⟨⟨_, hpool, rfl⟩, hpc⟩
  | foundChallenge hfind => exact ⟨hpc.1, hpc.2, Table.has_iff.2 ⟨_, hfind⟩⟩
  | missedChallenge => exact hpc
  | @addChallenge config db hadd =>
    obtain ⟨⟨p, hp, hid⟩, hminer⟩ := hpc
    obtain ⟨hadds, hhas⟩ := Database.Adds.challenge hadd
    have hledger := addNewChallenge_sameLedger .executed ⟨config.poolId, env.proof.challenge⟩ m.db
    rw [hadd] at hledger
    refine ⟨⟨p, hadds.pool p hp, hid⟩, ?_, hhas⟩
    rw [hledger.miners]
    exact hminer
  | _ => trivial

end

/-! ### Runs -/

namespace Startup

variable {s s' : Startup} {a : Action}

/-- The lookup of a pool that has a row does not fail in the query; without a connection `main` ends. -/
def PoolFound (s : Startup) : Action → Prop
  | .validate (.call o) => s.pc = .getPool → s.mem.db.pool.isSome → o = .executed ∨ o = .noConnection
  | _ => True

instance (s : Startup) (a : Action) : Decidable (s.PoolFound a) :=
  match a with
  | .validate (.call o) =>
    inferInstanceAs (Decidable (s.pc = .getPool → s.mem.db.pool.isSome → o = .executed ∨ o = .noConnection))
  | .validate (.insertPool _ _) | .validate (.signup _ _) | .restart _ => isTrue trivial

/-- The invariant: the tables are in step, and what `main` has validated is there. -/
structure Valid (s : Startup) : Prop where
  inStep : s.mem.db.InStep
  passed : s.pc.Passed s.env s.mem.db

theorem Valid.step (hs : s.Valid) (h : step s a = some s') : s'.Valid ∧ s.mem.db.Adds s'.mem.db := by
  cases a with
  | restart env =>
    cases h
    exact ⟨⟨hs.inStep, trivial⟩, .refl _⟩
  | validate input =>
    obtain ⟨⟨m, pc⟩, hstep, rfl⟩ := Option.map_eq_some_iff.1 h
    have hstep := ValidationPc.step_sound hstep
    exact ⟨⟨hstep.inStep hs.inStep, hstep.passed hs.passed⟩, hstep.adds⟩

/-- As long as lookups find the pool that is there, a pool is only inserted when there is none. -/
theorem more_step {rest : List Pool} (hs : s.mem.more = rest ∧ (s.pc = .addPool → s.mem.db.pool = none))
    (hfound : s.PoolFound a) (h : step s a = some s') :
    s'.mem.more = rest ∧ (s'.pc = .addPool → s'.mem.db.pool = none) := by
  cases a with
  | restart env =>
    cases h
    exact ⟨hs.1, by rintro ⟨⟩⟩
  | validate input =>
    obtain ⟨⟨m, pc⟩, hstep, rfl⟩ := Option.map_eq_some_iff.1 h
    have hstep := ValidationPc.step_sound hstep
    obtain ⟨hmore, hnone⟩ := hs
    generalize hpc : s.pc = pc₀ at hstep
    cases hstep with
    | @missedPool o e he hne =>
      refine ⟨hmore, fun _ => ?_⟩
      rcases hpool : s.mem.db.pool with _ | p
      · rfl
      · rcases hfound hpc (by rw [hpool]; rfl) with rfl | rfl
        · simp [getPoolByAuthorityPubkey, query, interact, select, hpool] at he
        · cases he
          exact absurd rfl hne
    | @addPool id =>
      refine ⟨?_, by rintro ⟨⟩⟩
      rcases s.mem.insertPool_db id with ⟨-, he⟩ | ⟨⟨p, hp⟩, -⟩
      · rw [he]
        exact hmore
      · rw [hnone hpc] at hp
        cases hp
    | _ => exact ⟨hmore, by rintro ⟨⟩⟩

/-- However often `main` was stopped and started again, and whichever calls failed: when it gets to spawning the tasks, the
pool, the receiver of the commissions, with exactly one balance, and the challenge have their rows.  Miners and balances
stay in step, no row that was there is changed and no balance moves; and the pool gets a second row only if the lookup of
the one it has fails in the query. -/
theorem spawns_validated {s₀ s : Startup} {as : List Action} (h0 : s₀.mem.db.InStep) (hpc : s₀.pc = .getPool)
    (h : run step s₀ as = some s) :
    (∀ config, s.pc = .spawn config →
      s.mem.db.Validated s.env config ∧ s.mem.db.addressed config.commissionsMinerId = 1) ∧
      s.mem.db.InStep ∧ s₀.mem.db.Adds s.mem.db ∧ (∀ id, s.mem.db.balance id = s₀.mem.db.balance id) ∧
      (Along step PoolFound s₀ as → s.mem.more = s₀.mem.more) := by
  have hvalid₀ : s₀.Valid := ⟨h0, by rw [hpc]; trivial⟩
  obtain ⟨hvalid, hadds⟩ : s.Valid ∧ s₀.mem.db.Adds s.mem.db :=
    run_related (C := fun _ _ => True) (R := fun s s' : Startup => s.mem.db.Adds s'.mem.db) (fun s => .refl s.mem.db)
      (fun h h' => h.trans h') (fun hs _ hstep => hs.step hstep) hvalid₀ (Along.true step s₀ as) h
  refine ⟨fun config hspawn => ?_, hvalid.inStep, hadds, hadds.balance, fun hfound => ?_⟩
  · have hall : s.mem.db.Validated s.env config := by
      have := hvalid.passed
      rwa [hspawn] at this
    obtain ⟨m, hm, hid⟩ := hall.miner
    refine ⟨hall, ?_⟩
    rw [← hid]
    exact hvalid.inStep.addressed (Table.find?_eq_some.1 hm).1
  · have hnone : s₀.pc = .addPool → s₀.mem.db.pool = none := by
      rw [hpc]
      rintro ⟨⟩
    exact (run_invariant (I := fun s => s.mem.more = s₀.mem.more ∧ (s.pc = .addPool → s.mem.db.pool = none))
      (fun hs hC hstep => more_step hs hC hstep) ⟨rfl, hnone⟩ hfound h).1

/-- `main` without a pool, stopped after it has inserted one, and started again. -/
def exampleStops (env : StartupEnv) : List Action :=
  [.validate (.call .executed), .validate (.insertPool .executed 1), .restart env] ++
    (List.replicate 2 (.validate (.call .executed)) ++ [.validate (.signup .executed 1)] ++
      List.replicate 4 (.validate (.call .executed)))

def exampleEnv : StartupEnv := ⟨filled 7, ⟨filled 9, 0⟩⟩

/-- A database without any row. -/
def exampleBlank : Database := { Signups.exampleEmpty with pool := none, credits := [] }

theorem exampleBlank_inStep : exampleBlank.InStep := by
  constructor
  · intro m hm
    cases hm
  · intro r hr
    cases hr

theorem spawns_validated_example : ∃ s, run step (start exampleEnv exampleBlank) (exampleStops exampleEnv) = some s ∧
    s.pc = .spawn ⟨1, 1⟩ ∧ s.mem.db.addressed 1 = 1 ∧ s.mem.more = [] := by
  obtain ⟨s, h, hpc⟩ : ∃ s, run step (start exampleEnv exampleBlank) (exampleStops exampleEnv) = some s ∧
      s.pc = .spawn ⟨1, 1⟩ := exists_of_run (by decide +kernel)
  obtain ⟨hspawn, -, -, -, hmore⟩ := spawns_validated exampleBlank_inStep rfl h
  exact ⟨s, h, hpc, (hspawn _ hpc).2, hmore (by decide +kernel)⟩

end Startup

/-! ### A start without faults -/

/-- The number of calls that a start can still make. -/
def ValidationPc.rank : ValidationPc → ℕ
  | .getPool => 8
  | .addPool => 7
  | .commissions .getMiner => 6
  | .commissions .signup => 5
  | .commissions .getSignedUp => 4
  | .getPoolId _ => 3
  | .getChallenge _ => 2
  | .addChallenge _ => 1
  | .commissions _ | .spawn _ | .panicked _ => 0

/-- Where `main` can be when all its calls have been executed. -/
def ValidationPc.OnCourse (env : StartupEnv) (db : Database) : ValidationPc → Prop
  | .commissions .getMiner | .getPoolId _ => db.pool.isSome
  | .commissions .signup => db.pool.isSome ∧ ¬ db.miners.Has env.commissionPubkey
  | .commissions .getSignedUp => db.pool.isSome ∧ db.miners.Has env.commissionPubkey
  | .addChallenge _ => ¬ db.challenges.Has env.proof.challenge
  | .commissions _ | .panicked _ => False
  | _ => True

theorem StartupMemory.insertPool_isSome (id : RowId) (m : StartupMemory) : (m.insertPool id).db.pool.isSome := by
  rcases m.insertPool_db id with ⟨-, he⟩ | ⟨⟨p, hp⟩, he⟩
  · rw [he]
    rfl
  · rw [he]
    show m.db.pool.isSome
    rw [hp]
    rfl

/-- The call is executed; a sign-up uses an id of its own. -/
def ValidationInput.Executed (db : Database) : ValidationInput → Prop
  | .call o | .insertPool o _ => o = .executed
  | .signup o id => o = .executed ∧ Signups.freshId db id = true

section

variable {env : StartupEnv} {m m' : StartupMemory} {i : ValidationInput} {pc pc' : ValidationPc}

/-- Everyone else finds the sign-up done. -/
private theorem commissions_executed {pc : StartupPc} {db : Database} {j : SignupInput} {pc' : StartupPc} (hm : m.db.InStep)
    (hpc : (ValidationPc.commissions pc).OnCourse env m.db)
    (hj : j = .call .executed ∨ ∃ id, j = .signup .executed id ∧ Signups.freshId m.db id = true)
    (h : pc.step env.commissionPubkey m.db j = some (db, pc')) :
    pc'.next.OnCourse env db ∧ pc'.next.rank < (ValidationPc.commissions pc).rank := by
  cases pc with
  | getMiner =>
    rcases hj with rfl | ⟨id, rfl, -⟩
    · rcases hfind : m.db.miners.find? env.commissionPubkey with _ | miner
      · simp only [StartupPc.step, getMinerByPubkeyStr, query_executed_none (q := fun db => db.miners.find? _) hfind] at h
        cases h
        exact ⟨⟨hpc, Table.find?_eq_none.1 hfind⟩, by decide⟩
      · simp only [StartupPc.step, getMinerByPubkeyStr, query_executed (q := fun db => db.miners.find? _) hfind] at h
        cases h
        exact ⟨hpc, show 3 < 6 by decide⟩
    · cases h
  | signup =>
    rcases hj with rfl | ⟨id, rfl, hid⟩
    · cases h
    · obtain ⟨hpool, hhas⟩ := hpc
      obtain ⟨db', hq⟩ := signupQuery_some hm (of_decide_eq_true hid) hpool hhas
      have hcall : signupUserTransaction .executed id env.commissionPubkey m.db = (.ok (), db') := by
        simp [signupUserTransaction, interact, hq]
      simp only [StartupPc.step, hcall] at h
      cases h
      obtain ⟨p, hp⟩ := Option.isSome_iff_exists.1 hpool
      have hpool' : db.pool.isSome := by
        rw [(Database.Adds.signup hq).pool p hp]
        rfl
      have hhas' : db.miners.Has env.commissionPubkey := by simp [Table.Has, (signupQuery_rows hq).2.1]
      exact ⟨⟨hpool', hhas'⟩, by decide⟩
  | getSignedUp =>
    rcases hj with rfl | ⟨id, rfl, -⟩
    · obtain ⟨hpool, hhas⟩ := hpc
      obtain ⟨miner, hfind⟩ := Table.has_iff.1 hhas
      simp only [StartupPc.step, getMinerByPubkeyStr, query_executed (q := fun db => db.miners.find? _) hfind] at h
      cases h
      exact ⟨hpool, show 3 < 4 by decide⟩
    · cases h
  | ready | panicked => exact hpc.elim

/-- An executed call brings `main` nearer to spawning. -/
theorem ValidationPc.step_executed (hm : m.db.InStep) (hpc : pc.OnCourse env m.db) (hi : i.Executed m.db)
    (h : pc.step env m i = some (m', pc')) : pc'.OnCourse env m'.db ∧ pc'.rank < pc.rank := by
  cases pc with
  | getPool =>
    cases i with
    | call o =>
      cases hi
      rcases hpool : m.db.pool with _ | p
      · simp only [step, getPoolByAuthorityPubkey, query_executed_none hpool] at h
        cases h
        exact ⟨trivial, by decide⟩
      · simp only [step, getPoolByAuthorityPubkey, query_executed hpool] at h
        cases h
        refine ⟨?_, by decide⟩
        show m.db.pool.isSome
        rw [hpool]
        rfl
    | _ => cases h
  | addPool =>
    cases i with
    | insertPool o id =>
      cases hi
      cases h
      exact ⟨m.insertPool_isSome id, by decide⟩
    | _ => cases h
  | commissions pc =>
    cases i with
    | call o =>
      cases hi
      obtain ⟨x, hx, he⟩ := Option.map_eq_some_iff.1 h
      cases he
      exact commissions_executed hm hpc (Or.inl rfl) hx
    | signup o id =>
      obtain ⟨rfl, hid⟩ := hi
      obtain ⟨x, hx, he⟩ := Option.map_eq_some_iff.1 h
      cases he
      exact commissions_executed hm hpc (Or.inr ⟨id, rfl, hid⟩) hx
    | _ => cases h
  | getPoolId commissionMinerId =>
    cases i with
    | call o =>
      cases hi
      obtain ⟨p, hp⟩ := Option.isSome_iff_exists.1 hpc
      simp only [step, getPoolByAuthorityPubkey, query_executed hp] at h
      cases h
      exact ⟨trivial, show 2 < 3 by decide⟩
    | _ => cases h
  | getChallenge config =>
    cases i with
    | call o =>
      cases hi
      rcases hfind : m.db.challenges.find? env.proof.challenge with _ | row
      · simp only [step, getChallengeByChallenge_none hfind] at h
        cases h
        exact ⟨Table.find?_eq_none.1 hfind, show 1 < 2 by decide⟩
      · simp only [step, getChallengeByChallenge_some hfind] at h
        cases h
        exact ⟨trivial, show 0 < 2 by decide⟩
    | _ => cases h
  | addChallenge config =>
    cases i with
    | call o =>
      cases hi
      obtain ⟨db, row, hadd, -⟩ := addNewChallenge_none (Table.find?_eq_none.2 hpc) config.poolId
      simp only [step, hadd] at h
      cases h
      exact ⟨trivial, show 0 < 1 by decide⟩
    | _ => cases h
  | spawn config => cases i <;> cases h
  | panicked text => exact hpc.elim

/-- Before the tasks are spawned there is a call to make. -/
theorem ValidationPc.enabled (hpc : pc.OnCourse env m.db) (hfree : ∃ id, Signups.freshId m.db id = true) :
    (∃ config, pc = .spawn config) ∨ ∃ i, i.Executed m.db ∧ (pc.step env m i).isSome := by
  obtain ⟨id, hid⟩ := hfree
  have call : (pc.step env m (.call .executed)).isSome → ∃ i : ValidationInput, i.Executed m.db ∧ (pc.step env m i).isSome :=
    fun h => ⟨.call .executed, rfl, h⟩
  cases pc with
  | spawn config => exact Or.inl ⟨config, rfl⟩
  | addPool => exact Or.inr ⟨.insertPool .executed 1, rfl, rfl⟩
  | commissions pc =>
    cases pc with
    | getMiner | getSignedUp =>
      refine Or.inr (call ?_)
      simp only [step, Option.isSome_map, StartupPc.step]
      split <;> rfl
    | signup =>
      refine Or.inr ⟨.signup .executed id, ⟨rfl, hid⟩, ?_⟩
      simp only [step, Option.isSome_map, StartupPc.step]
      split <;> rfl
    | ready | panicked => exact hpc.elim
  | getPool | getPoolId | getChallenge | addChallenge =>
    refine Or.inr (call ?_)
    simp only [step]
    split <;> rfl
  | panicked => exact hpc.elim

end

namespace Startup

variable {s s' : Startup} {a : Action}

/-- `main` goes on, and its call is executed. -/
def Executes (s : Startup) : Action → Prop
  | .validate input => input.Executed s.mem.db
  | .restart _ => False

/-- `main` is on its course, with calls left. -/
structure Underway (n : ℕ) (s : Startup) : Prop where
  inStep : s.mem.db.InStep
  course : s.pc.OnCourse s.env s.mem.db
  rank : s.pc.rank ≤ n

/-- `n` executed calls use up `n` of the rank. -/
theorem Underway.run {n : ℕ} {bs : List Action} (hs : s.Underway n) (hC : Along step Executes s bs)
    (h : run step s bs = some s') : bs.length ≤ n ∧ s'.Underway (n - bs.length) := by
  induction bs generalizing s n with
  | nil =>
    cases h
    exact ⟨Nat.zero_le n, hs⟩
  | cons b bs ih =>
    obtain ⟨t, ht, h⟩ := run_cons.1 h
    cases b with
    | restart env => exact hC.1.elim
    | validate input =>
      obtain ⟨⟨m, pc⟩, hstep, rfl⟩ := Option.map_eq_some_iff.1 ht
      obtain ⟨hcourse, hrank⟩ := ValidationPc.step_executed hs.inStep hs.course hC.1 hstep
      have hnext : Underway (n - 1) ⟨s.env, m, pc⟩ :=
        ⟨(ValidationPc.step_sound hstep).inStep hs.inStep, hcourse, Nat.le_sub_one_of_lt (hrank.trans_le hs.rank)⟩
      obtain ⟨hlen, hend⟩ := ih hnext (hC.2 _ ht) h
      have hpos : 0 < n := (Nat.zero_le _).trans_lt (hrank.trans_le hs.rank)
      rw [List.length_cons]
      refine ⟨by omega, ?_⟩
      rwa [Nat.sub_add_eq, Nat.sub_right_comm]

/-- Wherever earlier starts were stopped, a start whose calls are executed makes at most eight of them; it never ends in a
panic, and as long as there are ids left it goes on until the tasks are spawned. -/
theorem restart_recovers {s₀ s t : Startup} {as bs : List Action} (h0 : s₀.mem.db.InStep) (hpc : s₀.pc = .getPool)
    (h : run step s₀ as = some s) (env : StartupEnv) (hC : Along step Executes ⟨env, s.mem, .getPool⟩ bs)
    (ht : run step s (.restart env :: bs) = some t) :
    bs.length ≤ 8 ∧ (∀ text, t.pc ≠ .panicked text) ∧ ((∃ id, Signups.freshId t.mem.db id = true) →
      (∃ config, t.pc = .spawn config) ∨ ∃ b t', t.Executes b ∧ step t b = some t') := by
  have hin : s.mem.db.InStep := (spawns_validated h0 hpc h).2.1
  obtain ⟨u, hu, ht⟩ := run_cons.1 ht
  cases hu
  have hstart : Underway 8 ⟨env, s.mem, .getPool⟩ := ⟨hin, trivial, Nat.le_refl 8⟩
  obtain ⟨hlen, hend⟩ := hstart.run hC ht
  refine ⟨hlen, fun text hpanic => ?_, fun hfree => ?_⟩
  · have hcourse := hend.course
    rw [hpanic] at hcourse
    exact hcourse
  · refine (ValidationPc.enabled hend.course hfree).imp_right ?_
    rintro ⟨i, hi, hsome⟩
    obtain ⟨x, hx⟩ := Option.isSome_iff_exists.1 hsome
    exact ⟨.validate i, _, hi, Option.map_eq_some_iff.2 ⟨x, hx, rfl⟩⟩

/-- `main` is stopped after it has inserted the pool; the next start finds it, and has a miner to sign up. -/
theorem restart_recovers_example : ∃ s t, run step (start exampleEnv exampleBlank) ((exampleStops exampleEnv).take 2) = some s ∧
    run step s (.restart exampleEnv :: List.replicate 2 (.validate (.call .executed))) = some t ∧
      t.pc = .commissions .signup ∧ ∃ b t', t.Executes b ∧ step t b = some t' := by
  set bs : List Action := List.replicate 2 (.validate (.call .executed)) with hbs
  obtain ⟨s, h, ht⟩ : ∃ s, run step (start exampleEnv exampleBlank) ((exampleStops exampleEnv).take 2) = some s ∧
      (run step s (.restart exampleEnv :: bs)).any
        (fun t => t.pc = .commissions .signup ∧ Signups.freshId t.mem.db 1 = true) = true :=
    exists_of_run (by decide +kernel)
  obtain ⟨t, ht, hpc, hid⟩ := exists_of_run (P := fun t : Startup => t.pc = .commissions .signup ∧
    Signups.freshId t.mem.db 1 = true) ht
  have hC : Along step Executes ⟨exampleEnv, s.mem, .getPool⟩ bs := by
    refine along_of_forall fun b hb u => ?_
    rw [List.eq_of_mem_replicate hb]
    rfl
  obtain ⟨-, -, hgoes⟩ := restart_recovers exampleBlank_inStep rfl h exampleEnv hC ht
  refine ⟨s, t, h, ht, hpc, (hgoes ⟨1, hid⟩).resolve_left ?_⟩
  rintro ⟨config, hspawn⟩
  rw [hpc] at hspawn
  cases hspawn

end Startup

end BitzPool
