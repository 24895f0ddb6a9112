import BitzPool.Basic
import BitzPool.Lib.Table

/-!
# The MySQL database and `AppDatabase`

The tables the server reads and writes, the SQL statements as partial functions on them (a statement the engine
rejects is `none`), and the methods of `AppDatabase`.  Every method takes a connection from the pool, runs its
statement through `interact`, and reports what happened layer by layer; `CallOutcome` says how far a call gets, and
`interact` is the part all methods share.  `updateRewards` is the exception and has a module of its own.

A pool has one row in `pools` (`main` inserts it when it is missing), so `pool` is that row; `Deployment` has the further
rows that `main` inserts when a lookup fails.  `credits` and `debits` are histories of what was ever posted to `rewards`;
no statement reads them.
-/

namespace BitzPool

open Keyed

/-! ### Rows -/

structure Miner where
  id : MinerId
  pubkey : Pubkey
  enabled : Bool
  deriving DecidableEq

structure Reward where
  minerId : MinerId
  balance : UInt64
  deriving DecidableEq

structure UpdateReward where
  minerId : MinerId
  balance : UInt64
  deriving DecidableEq

structure Pool where
  id : RowId
  totalRewards : UInt64
  claimedRewards : UInt64
  deriving DecidableEq

structure InsertEarning where
  minerId : MinerId
  poolId : RowId
  challengeId : RowId
  amount : UInt64
  difficulty : Int8
  workerName : String
  deriving DecidableEq

structure InsertSubmission where
  minerId : MinerId
  challengeId : RowId
  nonce : UInt64
  difficulty : Int8
  deriving DecidableEq

/-- A row of `txns`; the signature of a transaction identifies it. -/
structure InsertTxn where
  txnType : String
  signature : ℕ
  priorityFee : UInt32
  deriving DecidableEq

structure InsertClaim where
  minerId : MinerId
  poolId : RowId
  txnId : ℕ
  amount : UInt64
  deriving DecidableEq

/-- A row of `claims`, with the timestamp the insertion gives it. -/
structure ClaimRow extends InsertClaim where
  createdAt : ℕ
  deriving DecidableEq

structure InsertChallenge where
  poolId : RowId
  challenge : Challenge
  deriving DecidableEq

structure ChallengeRow extends InsertChallenge where
  id : RowId
  submissionId : Option ℕ
  rewardsEarned : Option UInt64
  deriving DecidableEq

structure Database where
  miners : Table Miner.pubkey
  idsUnique : (miners.rows.map Miner.id).Nodup
  rewards : Table Reward.minerId
  pool : Option Pool
  earnings : List InsertEarning
  submissions : List InsertSubmission
  txns : List InsertTxn
  claims : List ClaimRow
  challenges : Table fun c : ChallengeRow => c.challenge
  credits : List UpdateReward
  debits : List UpdateReward

namespace Database

/-- The balance of a miner, 0 without a row in `rewards`. -/
def balance (db : Database) (id : MinerId) : ℕ := db.rewards.value (fun r => r.balance.toNat) id

/-- The sum of all balances. -/
def totalBalance (db : Database) : ℕ := db.rewards.total fun r => r.balance.toNat

/-- `SELECT * FROM miners m JOIN rewards r ON m.id = r.miner_id WHERE m.pubkey = ?`. -/
def rewardOf (db : Database) (pubkey : Pubkey) : Option Reward :=
  (db.miners.find? pubkey).bind fun m => db.rewards.find? m.id

/-- The balance behind a pubkey, 0 for an unknown one. -/
def balanceOf (db : Database) (pubkey : Pubkey) : ℕ :=
  match db.miners.find? pubkey with
  | some m => db.balance m.id
  | none => 0

/-- A database with one pool and one miner who signed up, for examples. -/
def single (pubkey : Pubkey) (balance : UInt64) : Database where
  miners := ⟨[⟨1, pubkey, true⟩], by simp⟩
  idsUnique := by simp
  rewards := ⟨[⟨1, balance⟩], by simp⟩
  pool := some ⟨1, balance, 0⟩
  earnings := []
  submissions := []
  txns := []
  claims := []
  challenges := ∅
  credits := [⟨1, balance⟩]
  debits := []

/-- Distinct pubkeys have distinct ids. -/
theorem pubkey_of_id {db : Database} {p p' : Pubkey} {m m' : Miner} (hm : db.miners.find? p = some m)
    (hm' : db.miners.find? p' = some m') (h : m.id = m'.id) : p = p' := by
  obtain ⟨h1, rfl⟩ := Table.find?_eq_some.1 hm
  obtain ⟨h2, rfl⟩ := Table.find?_eq_some.1 hm'
  rw [List.inj_on_of_nodup_map db.idsUnique h1 h2 h]

end Database

/-! ### Calls -/

inductive AppDatabaseError
  | failedToGetConnectionFromPool
  | failedToUpdateRow
  | failedToInsertRow
  | interactionFailed
  | queryFailed
  deriving DecidableEq

/-- How far a database call gets: no connection from the pool, an error of `interact`, an error of the statement
without effect, or the statement is executed. -/
inductive CallOutcome
  | noConnection
  | interactError
  | sqlError
  | executed
  deriving DecidableEq

/-- A call of a method of `AppDatabase` around the statement `query`. -/
def interact {β : Type} (o : CallOutcome) (query : Database → Option (β × Database)) (db : Database) :
    Except AppDatabaseError β × Database :=
  match o with
  | .noConnection => (.error .failedToGetConnectionFromPool, db)
  | .interactError => (.error .interactionFailed, db)
  | .sqlError => (.error .queryFailed, db)
  | .executed =>
    match query db with
    | none => (.error .queryFailed, db)
    | some (a, db') => (.ok a, db')

theorem isOk_iff {ε β : Type} {x : Except ε β} : x.isOk = true ↔ ∃ a, x = .ok a := by
  cases x <;> simp [Except.isOk, Except.toBool]

theorem isOk_fst {ε β γ : Type} {x : Except ε β × γ} (h : x.1.isOk = true) : ∃ a y, x = (.ok a, y) := by
  obtain ⟨a, ha⟩ := isOk_iff.1 h
  exact ⟨a, x.2, Prod.ext ha rfl⟩

/-- A call either fails and leaves the database unchanged, or its statement was executed. -/
theorem interact_cases {β : Type} (o : CallOutcome) (query : Database → Option (β × Database)) (db : Database) :
    (∃ e, interact o query db = (.error e, db)) ∨
      ∃ a db', o = .executed ∧ query db = some (a, db') ∧ interact o query db = (.ok a, db') := by
  cases o with
  | noConnection | interactError | sqlError => exact Or.inl ⟨_, rfl⟩
  | executed =>
    rcases h : query db with _ | ⟨a, db'⟩
    · exact Or.inl ⟨.queryFailed, by simp [interact, h]⟩
    · exact Or.inr ⟨a, db', rfl, rfl, by simp [interact, h]⟩

theorem interact_ok {β : Type} {o : CallOutcome} {query : Database → Option (β × Database)} {db db' : Database}
    {a : β} (h : interact o query db = (.ok a, db')) : o = .executed ∧ query db = some (a, db') := by
  rcases interact_cases o query db with ⟨e, he⟩ | ⟨a', db'', ho, hq, he⟩
  · rw [he] at h; cases h
  · rw [he] at h; cases h; exact ⟨ho, hq⟩

theorem interact_error {β : Type} {o : CallOutcome} {query : Database → Option (β × Database)} {db db' : Database}
    {e : AppDatabaseError} (h : interact o query db = (.error e, db')) : db' = db := by
  rcases interact_cases o query db with ⟨e', he⟩ | ⟨a', db'', ho, hq, he⟩
  · rw [he] at h; cases h; rfl
  · rw [he] at h; cases h

/-- What the statement leaves alone, the call does. -/
theorem interact_frame {β γ : Type} {o : CallOutcome} {query : Database → Option (β × Database)} {db : Database}
    (f : Database → γ) (hf : ∀ {a db'}, query db = some (a, db') → f db' = f db) : f (interact o query db).2 = f db := by
  rcases interact_cases o query db with ⟨e, he⟩ | ⟨a, db', -, hq, he⟩
  · rw [he]
  · rw [he]
    exact hf hq

/-- A statement that only reads. -/
def select {β : Type} (q : Database → Option β) (db : Database) : Option (β × Database) :=
  (q db).map fun b => (b, db)

theorem interact_select_db {β : Type} (o : CallOutcome) (q : Database → Option β) (db : Database) :
    (interact o (select q) db).2 = db := by
  rcases interact_cases o (select q) db with ⟨e, he⟩ | ⟨a, db', _, hq, he⟩
  · rw [he]
  · obtain ⟨b, _, hb⟩ := Option.map_eq_some_iff.1 hq
    cases hb
    rw [he]

/-! ### Queries -/

/-- The result of a method that only reads. -/
def query {β : Type} (o : CallOutcome) (q : Database → Option β) (db : Database) : Except AppDatabaseError β :=
  (interact o (select q) db).1

theorem query_ok {β : Type} {o : CallOutcome} {q : Database → Option β} {db : Database} {b : β}
    (h : query o q db = .ok b) : q db = some b := by
  have h' : interact o (select q) db = (.ok b, db) := Prod.ext h (interact_select_db o q db)
  obtain ⟨b', hb', he⟩ := Option.map_eq_some_iff.1 (interact_ok h').2
  cases he
  exact hb'

/-- A statement that only reads, when it is executed. -/
theorem query_executed {β : Type} {q : Database → Option β} {db : Database} {b : β} (h : q db = some b) :
    query .executed q db = .ok b := by
  simp [query, interact, select, h]

theorem query_executed_none {β : Type} {q : Database → Option β} {db : Database} (h : q db = none) :
    query .executed q db = .error .queryFailed := by
  simp [query, interact, select, h]

def getPoolByAuthorityPubkey (o : CallOutcome) (db : Database) : Except AppDatabaseError Pool :=
  query o Database.pool db

def getMinerByPubkeyStr (o : CallOutcome) (pubkey : Pubkey) (db : Database) : Except AppDatabaseError Miner :=
  query o (fun db => db.miners.find? pubkey) db

def getMinerById (o : CallOutcome) (id : MinerId) (db : Database) : Except AppDatabaseError Miner :=
  query o (fun db => db.miners.rows.find? fun m => m.id = id) db

def getMinerRewards (o : CallOutcome) (pubkey : Pubkey) (db : Database) : Except AppDatabaseError Reward :=
  query o (fun db => db.rewardOf pubkey) db

def getMinerRewardsById (o : CallOutcome) (id : MinerId) (db : Database) : Except AppDatabaseError Reward :=
  query o (fun db => db.rewards.find? id) db

/-- The time of the miner's latest row in `claims`. -/
def getLastClaim (o : CallOutcome) (id : MinerId) (db : Database) : Except AppDatabaseError ℕ :=
  query o (fun db => (db.claims.reverse.find? fun c => c.minerId = id).map fun c => c.createdAt) db

/-- The id of the transaction with the given signature (its place in `txns`). -/
def getTxnBySig (o : CallOutcome) (sig : ℕ) (db : Database) : Except AppDatabaseError ℕ :=
  query o (fun db => (db.txns.findIdx? fun t => t.signature = sig).map (· + 1)) db

def getChallengeByChallenge (o : CallOutcome) (c : Challenge) (db : Database) :
    Except AppDatabaseError ChallengeRow :=
  query o (fun db => db.challenges.find? c) db

/-- The id (the place in `submissions`) of the last row with the given nonce. -/
def getSubmissionIdWithNonce (o : CallOutcome) (nonce : UInt64) (db : Database) : Except AppDatabaseError ℕ :=
  query o (fun db => (db.submissions.reverse.findIdx? fun r => r.nonce = nonce).map (db.submissions.length - ·)) db

/-! ### Updates -/

/-- `UPDATE rewards SET balance = balance - ? WHERE miner_id = ?`: rejected below zero, no effect without a row. -/
def decreaseQuery (u : UpdateReward) (db : Database) : Option (Unit × Database) :=
  match db.rewards.find? u.minerId with
  | none => some ((), db)
  | some r =>
    if u.balance ≤ r.balance then
      some ((), { db with
        rewards := db.rewards.update
          (fun r => if r.minerId = u.minerId then { r with balance := r.balance - u.balance } else r)
          (fun r => by split <;> rfl)
        debits := u :: db.debits })
    else none

def decreaseMinerReward (o : CallOutcome) (u : UpdateReward) (db : Database) :
    Except AppDatabaseError Unit × Database :=
  interact o (decreaseQuery u) db

/-- An `UPDATE` of the pool's row: the number of rows matched; rejected when a column would overflow. -/
def updatePool (f : Pool → Option Pool) (db : Database) : Option (ℕ × Database) :=
  match db.pool with
  | none => some (0, db)
  | some p => (f p).map fun p' => (1, { db with pool := some p' })

/-- `a + b` in a `BIGINT UNSIGNED` column. -/
def checkedAdd (a b : UInt64) : Option UInt64 := if a.toNat + b.toNat < 2 ^ 64 then some (a + b) else none

theorem checkedAdd_eq_some {a b c : UInt64} (h : checkedAdd a b = some c) : c.toNat = a.toNat + b.toNat := by
  unfold checkedAdd at h
  split at h
  · next hlt =>
    cases h
    rw [UInt64.toNat_add, Nat.mod_eq_of_lt hlt]
  · cases h

/-- The result of a method that looks at the number of rows its statement changed. -/
def expectRows (expected : ℕ → Bool) (e : AppDatabaseError) (res : Except AppDatabaseError ℕ × Database) :
    Except AppDatabaseError Unit × Database :=
  match res with
  | (.ok n, db) => if expected n then (.ok (), db) else (.error e, db)
  | (.error e', db) => (.error e', db)

theorem expectRows_ok {expected : ℕ → Bool} {e : AppDatabaseError} {res : Except AppDatabaseError ℕ × Database}
    {db : Database} (h : expectRows expected e res = (.ok (), db)) : ∃ n, expected n = true ∧ res = (.ok n, db) := by
  obtain ⟨_ | n, db'⟩ := res
  · cases h
  · simp only [expectRows] at h
    split at h
    · next hn =>
      cases h
      exact ⟨n, hn, rfl⟩
    · cases h

theorem expectRows_error {expected : ℕ → Bool} {e e' : AppDatabaseError}
    {res : Except AppDatabaseError ℕ × Database} {db : Database} (h : expectRows expected e res = (.error e', db)) :
    res = (.error e', db) ∨ ∃ n, expected n = false ∧ res = (.ok n, db) := by
  obtain ⟨_ | n, db'⟩ := res
  · cases h
    exact Or.inl rfl
  · simp only [expectRows] at h
    split at h
    · cases h
    · next hn =>
      cases h
      exact Or.inr ⟨n, Bool.eq_false_iff.2 hn, rfl⟩

def updatePoolClaimed (o : CallOutcome) (claimedRewards : UInt64) (db : Database) :
    Except AppDatabaseError Unit × Database :=
  expectRows (· == 1) .failedToUpdateRow (interact o (updatePool fun p =>
    (checkedAdd p.claimedRewards claimedRewards).map fun c => { p with claimedRewards := c }) db)

/-- Unlike `updatePoolClaimed`, this does not look at the number of rows. -/
def updatePoolRewards (o : CallOutcome) (earnedRewards : UInt64) (db : Database) :
    Except AppDatabaseError ℕ × Database :=
  interact o (updatePool fun p =>
    (checkedAdd p.totalRewards earnedRewards).map fun t => { p with totalRewards := t }) db

def addNewTxn (o : CallOutcome) (txn : InsertTxn) (db : Database) : Except AppDatabaseError Unit × Database :=
  interact o (fun db => some ((), { db with txns := db.txns ++ [txn] })) db

def addNewClaim (o : CallOutcome) (now : ℕ) (claim : InsertClaim) (db : Database) :
    Except AppDatabaseError Unit × Database :=
  interact o (fun db => some ((), { db with claims := db.claims ++ [{ claim with createdAt := now }] })) db

/-- The columns of `earnings` hold a worker name of at most 36 characters. -/
def workerNameMax : ℕ := 36

def addNewEarningsBatch (o : CallOutcome) (batch : List InsertEarning) (db : Database) :
    Except AppDatabaseError Unit × Database :=
  expectRows (· != 0) .failedToInsertRow (interact o (fun db =>
    if ∀ e ∈ batch, e.workerName.length ≤ workerNameMax then
      some (batch.length, { db with earnings := db.earnings ++ batch })
    else none) db)

def addNewSubmissionsBatch (o : CallOutcome) (batch : List InsertSubmission) (db : Database) :
    Except AppDatabaseError Unit × Database :=
  expectRows (· != 0) .failedToInsertRow (interact o (fun db =>
    some (batch.length, { db with submissions := db.submissions ++ batch })) db)

/-- `INSERT INTO challenges`: rejected for a challenge that has a row.  The id is the next `AUTO_INCREMENT`. -/
def addNewChallenge (o : CallOutcome) (c : InsertChallenge) (db : Database) :
    Except AppDatabaseError Unit × Database :=
  interact o (fun db =>
    (db.challenges.insert?
      { c with id := Int32.ofNat (db.challenges.rows.length + 1), submissionId := none, rewardsEarned := none }).map
      fun t => ((), { db with challenges := t })) db

section

variable {c : Challenge} {db : Database} {row : ChallengeRow}

theorem getChallengeByChallenge_some (h : db.challenges.find? c = some row) :
    getChallengeByChallenge .executed c db = .ok row := by
  simp [getChallengeByChallenge, query, interact, select, h]

theorem getChallengeByChallenge_none (h : db.challenges.find? c = none) :
    getChallengeByChallenge .executed c db = .error .queryFailed := by
  simp [getChallengeByChallenge, query, interact, select, h]

/-- A challenge that has a row is rejected. -/
theorem addNewChallenge_some (h : db.challenges.find? c = some row) (poolId : RowId) :
    addNewChallenge .executed ⟨poolId, c⟩ db = (.error .queryFailed, db) := by
  have hnone : ∀ row' : ChallengeRow, row'.challenge = c → db.challenges.insert? row' = none := by
    intro row' he
    rw [← Option.not_isSome_iff_eq_none, Table.insert?_isSome, not_not, he]
    exact Table.has_iff.2 ⟨row, h⟩
  simp [addNewChallenge, interact, hnone]

/-- A challenge without a row gets one. -/
theorem addNewChallenge_none (h : db.challenges.find? c = none) (poolId : RowId) :
    ∃ db' row', addNewChallenge .executed ⟨poolId, c⟩ db = (.ok (), db') ∧ db'.challenges.find? c = some row' := by
  set row' : ChallengeRow := ⟨⟨poolId, c⟩, Int32.ofNat (db.challenges.rows.length + 1), none, none⟩ with hrow
  obtain ⟨t, ht⟩ : ∃ t, db.challenges.insert? row' = some t := by
    rw [← Option.isSome_iff_exists, Table.insert?_isSome]
    exact Table.find?_eq_none.1 h
  refine ⟨{ db with challenges := t }, row', ?_, ?_⟩
  · simp only [addNewChallenge, interact, ← hrow, ht, Option.map_some]
  · rw [Table.find?_insert ht, if_pos rfl]

/-- An insertion that is executed adds at most the row for its challenge. -/
theorem addNewChallenge_rows (c : Challenge) (db : Database) (poolId : RowId) :
    db.challenges.Has c ∧ (addNewChallenge .executed ⟨poolId, c⟩ db).2 = db ∨
      ¬ db.challenges.Has c ∧ ∃ row, row.challenge = c ∧
        (addNewChallenge .executed ⟨poolId, c⟩ db).2.challenges.rows = db.challenges.rows ++ [row] := by
  by_cases hc : db.challenges.Has c
  · obtain ⟨row, hrow⟩ := Table.has_iff.1 hc
    exact Or.inl ⟨hc, by rw [addNewChallenge_some hrow]⟩
  · set row : ChallengeRow := ⟨⟨poolId, c⟩, Int32.ofNat (db.challenges.rows.length + 1), none, none⟩ with hrow
    obtain ⟨t, ht⟩ : ∃ t, db.challenges.insert? row = some t := Option.isSome_iff_exists.1 (Table.insert?_isSome.2 hc)
    refine Or.inr ⟨hc, row, rfl, ?_⟩
    simp only [addNewChallenge, interact, ← hrow, ht, Option.map_some]
    exact (Table.insert?_eq_some ht).2

end

def updateChallengeRewards (o : CallOutcome) (c : Challenge) (submissionId : ℕ) (rewards : UInt64)
    (db : Database) : Except AppDatabaseError Unit × Database :=
  expectRows (· == 1) .failedToUpdateRow (interact o (fun db =>
    some ((db.challenges.rows.filter fun r => r.challenge = c).length, { db with
      challenges := db.challenges.update
        (fun r => if r.challenge = c then
          { r with rewardsEarned := some rewards, submissionId := some submissionId } else r)
        (fun r => by split <;> rfl) })) db)

/-- A miner with a new id keeps the ids distinct. -/
theorem Database.nodup_ids_insert (db : Database) {id : MinerId} {pubkey : Pubkey} {miners : Table Miner.pubkey}
    (hid : id ∉ db.miners.rows.map Miner.id) (hm : db.miners.insert? ⟨id, pubkey, true⟩ = some miners) :
    (miners.rows.map Miner.id).Nodup := by
  rw [(Table.insert?_eq_some hm).2, List.map_append, List.nodup_append]
  refine ⟨db.idsUnique, List.nodup_singleton id, ?_⟩
  intro i hi j hj he
  have hj : j = id := by simpa using hj
  rw [he, hj] at hi
  exact hid hi

/-- The four statements of the sign-up transaction, rolled back together when one is rejected.  `id` is the
`AUTO_INCREMENT` value of the new row of `miners`. -/
def signupQuery (id : MinerId) (pubkey : Pubkey) (db : Database) : Option (Unit × Database) :=
  if hid : id ∈ db.miners.rows.map Miner.id then none
  else
    match hm : db.miners.insert? ⟨id, pubkey, true⟩ with
    | none => none
    | some miners =>
      match db.pool, db.rewards.insert? ⟨id, 0⟩ with
      | some _, some rewards => some ((), { db with
          miners := miners
          idsUnique := db.nodup_ids_insert hid hm
          rewards := rewards })
      | _, _ => none

def signupUserTransaction (o : CallOutcome) (id : MinerId) (pubkey : Pubkey) (db : Database) :
    Except AppDatabaseError Unit × Database :=
  interact o (signupQuery id pubkey) db

end BitzPool
