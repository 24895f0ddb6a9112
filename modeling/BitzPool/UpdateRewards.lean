import BitzPool.Database
import Mathlib.Data.List.Dedup

/-!
# Crediting a batch of rewards

`AppDatabase::update_rewards` credits a batch with one statement: the batch is grouped by miner
(`SELECT miner_id, SUM(balance) .. GROUP BY miner_id`) and the groups are joined to `rewards`.  Since both sides of
the join have unique keys, an executed statement adds to every row what the batch lists for its miner
(`updateRewardsQuery_spec`), however often a miner occurs in the batch.

Unlike its siblings, the method looks neither at the result of the statement (`try_join_all` reports the outer error
of `interact` only) nor at the number of rows it changed.  So a call says `Ok` although the statement failed, or
although the join dropped a miner without a row, and the retry loops of its callers stop without having credited
anything.  `updateRewards_truthful_iff` says exactly when a call and a loop keep what their result promises.
-/

namespace BitzPool

open Keyed

/-- The sum a batch lists for a miner. -/
def batchSum (batch : List UpdateReward) (id : MinerId) : ℕ :=
  sumAt UpdateReward.minerId (fun u => u.balance.toNat) batch id

theorem batchSum_append (b b' : List UpdateReward) (id : MinerId) :
    batchSum (b ++ b') id = batchSum b id + batchSum b' id :=
  sumAt_append _ _ _

/-- The table `grouped` of the statement: one row for each miner of the batch. -/
def grouped (batch : List UpdateReward) : List (MinerId × ℕ) :=
  (batch.map UpdateReward.minerId).dedup.map fun id => (id, batchSum batch id)

/-- The row of `grouped` that a row of `rewards` is joined to, and the balance it is set to. -/
def newBalance (batch : List UpdateReward) (r : Reward) : ℕ :=
  match (grouped batch).find? fun g => g.1 = r.minerId with
  | some g => r.balance.toNat + g.2
  | none => r.balance.toNat

theorem newBalance_eq (batch : List UpdateReward) (r : Reward) :
    newBalance batch r = r.balance.toNat + batchSum batch r.minerId := by
  unfold newBalance
  split
  · next g hg =>
    obtain ⟨id, _, rfl⟩ := List.mem_map.1 (List.mem_of_find?_eq_some hg)
    have hid : id = r.minerId := by simpa using List.find?_some hg
    rw [hid]
  · next hg =>
    have hz : batchSum batch r.minerId = 0 := by
      refine sumAt_eq_zero fun u hu he => ?_
      have hmem : (r.minerId, batchSum batch r.minerId) ∈ grouped batch :=
        List.mem_map.2 ⟨r.minerId, List.mem_dedup.2 (List.mem_map.2 ⟨u, hu, he⟩), rfl⟩
      exact absurd (List.find?_eq_none.1 hg _ hmem) (by simp)
    rw [hz, Nat.add_zero]

/-- `UPDATE rewards r JOIN (.. GROUP BY miner_id) grouped ON .. SET r.balance = r.balance + grouped.total_balance`.
The text of the statement is malformed for an empty batch; a balance past its column is rejected. -/
def updateRewardsQuery (batch : List UpdateReward) (db : Database) : Option (Unit × Database) :=
  if batch ≠ [] ∧ ∀ r ∈ db.rewards.rows, newBalance batch r < 2 ^ 64 then
    some ((), { db with
      rewards := db.rewards.update (fun r => { r with balance := UInt64.ofNat (newBalance batch r) }) fun _ => rfl
      credits := (batch.filter fun u => db.rewards.Has u.minerId) ++ db.credits })
  else none

/-- `t'` is `t` with the batch credited: every miner's row has what the batch lists for that miner on top. -/
def Credited (batch : List UpdateReward) (t t' : Table Reward.minerId) : Prop :=
  ∀ id, (t'.Has id ↔ t.Has id) ∧
    (t.Has id → t'.value (fun r => r.balance.toNat) id = t.value (fun r => r.balance.toNat) id + batchSum batch id)

/-- What an executed statement does. -/
theorem updateRewardsQuery_spec {batch : List UpdateReward} {db db' : Database} {u : Unit}
    (h : updateRewardsQuery batch db = some (u, db')) :
    Credited batch db.rewards db'.rewards ∧
      db'.totalBalance ≤ db.totalBalance + (batch.map fun u => u.balance.toNat).sum ∧
      db' = { db with
        rewards := db'.rewards
        credits := (batch.filter fun u => db.rewards.Has u.minerId) ++ db.credits } := by
  unfold updateRewardsQuery at h
  split at h
  · next hlt =>
    have hnew : ∀ r ∈ db.rewards.rows,
        (UInt64.ofNat (newBalance batch r)).toNat = r.balance.toNat + batchSum batch r.minerId := by
      intro r hr
      rw [UInt64.toNat_ofNat', Nat.mod_eq_of_lt (hlt.2 r hr), newBalance_eq]
    have hf : ∀ r : Reward,
        ({ r with balance := UInt64.ofNat (newBalance batch r) } : Reward).minerId = r.minerId := fun _ => rfl
    cases h
    refine ⟨fun id => ⟨Table.has_update hf, fun hid => ?_⟩, ?_, rfl⟩
    · obtain ⟨r, hr⟩ := Table.has_iff.1 hid
      obtain ⟨hmem, rfl⟩ := Table.find?_eq_some.1 hr
      rw [Table.value_update hf hr, Table.value_of_find? hr]
      exact hnew r hmem
    · exact Table.total_sumAt_le hf batch hnew
  · cases h

/-! ### The call and its retry loop -/

def updateRewards (o : CallOutcome) (batch : List UpdateReward) (db : Database) :
    Except AppDatabaseError Unit × Database :=
  match o with
  | .noConnection => (.error .failedToGetConnectionFromPool, db)
  | .interactError => (.error .queryFailed, db)
  -- `match res { Ok(_) => Ok(()) .. }`: the result of the statement is inside the `Ok`
  | .sqlError => (.ok (), db)
  | .executed =>
    match updateRewardsQuery batch db with
    | none => (.ok (), db)
    | some (_, db') => (.ok (), db')

/-- The third of the four outcomes of a call: the statement itself fails, without effect. -/
def SqlFails (o : CallOutcome) (batch : List UpdateReward) (db : Database) : Prop :=
  o = .sqlError ∨ o = .executed ∧ updateRewardsQuery batch db = none

instance (o : CallOutcome) (batch : List UpdateReward) (db : Database) : Decidable (SqlFails o batch db) :=
  decidable_of_iff (o = .sqlError ∨ o = .executed ∧ (updateRewardsQuery batch db).isNone = true)
    (by simp [SqlFails])

theorem updateRewards_ok {o : CallOutcome} {batch : List UpdateReward} {db db' : Database}
    (h : updateRewards o batch db = (.ok (), db')) :
    SqlFails o batch db ∧ db' = db ∨ o = .executed ∧ updateRewardsQuery batch db = some ((), db') := by
  cases o with
  | noConnection | interactError => cases h
  | sqlError => cases h; exact Or.inl ⟨Or.inl rfl, rfl⟩
  | executed =>
    rcases hq : updateRewardsQuery batch db with _ | ⟨u, db''⟩
    · simp only [updateRewards, hq] at h
      cases h
      exact Or.inl ⟨Or.inr ⟨rfl, hq⟩, rfl⟩
    · simp only [updateRewards, hq] at h
      cases h
      exact Or.inr ⟨rfl, rfl⟩

theorem updateRewards_error {o : CallOutcome} {batch : List UpdateReward} {db db' : Database}
    {e : AppDatabaseError} (h : updateRewards o batch db = (.error e, db')) : db' = db ∧ ¬ SqlFails o batch db := by
  cases o with
  | noConnection | interactError => cases h; exact ⟨rfl, by simp [SqlFails]⟩
  | sqlError => cases h
  | executed => rcases hq : updateRewardsQuery batch db with _ | ⟨u, db''⟩ <;> simp [updateRewards, hq] at h

/-- The two outcomes that the call reports as an error. -/
theorem updateRewards_error_iff {o : CallOutcome} {batch : List UpdateReward} {db : Database} :
    (updateRewards o batch db).1 ≠ .ok () ↔ o = .noConnection ∨ o = .interactError := by
  cases o with
  | noConnection | interactError | sqlError => simp [updateRewards]
  | executed => rcases hq : updateRewardsQuery batch db with _ | ⟨u, db''⟩ <;> simp [updateRewards, hq]

/-- `while let Err(_) = update_rewards(batch)`: the state the loop leaves when its calls have the outcomes `os`, or
`none` while it is still retrying. -/
def retryUpdateRewards (batch : List UpdateReward) : List CallOutcome → Database → Option Database
  | [], _ => none
  | o :: os, db =>
    match updateRewards o batch db with
    | (.ok _, db') => some db'
    | (.error _, db') => retryUpdateRewards batch os db'

/-- Every miner of the batch has a row in `rewards`, so that the join drops nothing of the batch. -/
def RowsPresent (batch : List UpdateReward) (t : Table Reward.minerId) : Prop :=
  ∀ u ∈ batch, t.Has u.minerId

/-- `t'` is `t` with the whole batch applied: every amount of the batch has a row that it was added to. -/
def Applied (batch : List UpdateReward) (t t' : Table Reward.minerId) : Prop :=
  RowsPresent batch t ∧ Credited batch t t'

/-- `Ok` means that the batch was applied, `Err` that nothing happened. -/
def Truthful (o : CallOutcome) (batch : List UpdateReward) (db : Database) : Prop :=
  ((updateRewards o batch db).1 = .ok () → Applied batch db.rewards (updateRewards o batch db).2.rewards) ∧
    ((updateRewards o batch db).1 ≠ .ok () → (updateRewards o batch db).2.rewards = db.rewards)

/-- The batch lists nothing for any miner with a row. -/
def CreditsNothing (batch : List UpdateReward) (db : Database) : Prop :=
  ∀ id, db.rewards.Has id → batchSum batch id = 0

theorem credited_self_iff {batch : List UpdateReward} {db : Database} :
    Credited batch db.rewards db.rewards ↔ CreditsNothing batch db := by
  constructor
  · intro h id hid
    have := (h id).2 hid
    omega
  · intro h id
    exact ⟨Iff.rfl, fun hid => by rw [h id hid, Nat.add_zero]⟩

/-- A batch whose miners have rows adds nothing when each of its amounts is zero. -/
theorem creditsNothing_iff {batch : List UpdateReward} {db : Database} (hrows : RowsPresent batch db.rewards) :
    CreditsNothing batch db ↔ ∀ u ∈ batch, u.balance = 0 := by
  constructor
  · intro h u hu
    have hz : u.balance.toNat = 0 := sumAt_eq_zero_iff.1 (h _ (hrows u hu)) u hu rfl
    exact UInt64.toNat_inj.1 hz
  · intro h id _
    refine sumAt_eq_zero_iff.2 fun u hu _ => ?_
    rw [h u hu, UInt64.toNat_zero]

private theorem truthful_iff (o : CallOutcome) (batch : List UpdateReward) (db : Database) :
    Truthful o batch db ↔
      (o = .noConnection ∨ o = .interactError) ∨
        RowsPresent batch db.rewards ∧ (¬ SqlFails o batch db ∨ ∀ u ∈ batch, u.balance = 0) := by
  rcases h : updateRewards o batch db with ⟨e | ⟨⟩, db'⟩
  · obtain ⟨rfl, -⟩ := updateRewards_error h
    have ho : o = .noConnection ∨ o = .interactError := updateRewards_error_iff.1 (by rw [h]; simp)
    simp [Truthful, h, ho]
  · have ho : ¬ (o = .noConnection ∨ o = .interactError) := fun ho => updateRewards_error_iff.2 ho (by rw [h])
    have hT : Truthful o batch db ↔ Applied batch db.rewards db'.rewards := by simp [Truthful, h]
    rw [hT, or_iff_right ho]
    refine and_congr_right fun hrows => ?_
    rcases updateRewards_ok h with ⟨hs, rfl⟩ | ⟨rfl, hq⟩
    · rw [credited_self_iff, creditsNothing_iff hrows, or_iff_right (not_not.2 hs)]
    · have hn : ¬ SqlFails .executed batch db := by simp [SqlFails, hq]
      simp [hn, (updateRewardsQuery_spec hq).1]

/-- Until a statement fails, a loop whose calls fail leaves the database alone; then it ends. -/
private theorem retry_spec {batch : List UpdateReward} {db db' : Database}
    (hq : updateRewardsQuery batch db = some ((), db')) {fs : List CallOutcome} (hfs : .executed ∉ fs) :
    retryUpdateRewards batch (fs ++ [.executed]) db = some (if .sqlError ∈ fs then db else db') := by
  induction fs with
  | nil => simp [retryUpdateRewards, updateRewards, hq]
  | cons o fs ih =>
    have hfs' : CallOutcome.executed ∉ fs := fun h => hfs (List.mem_cons_of_mem _ h)
    cases o with
    | noConnection | interactError =>
      simp only [List.cons_append, retryUpdateRewards, updateRewards, ih hfs']
      simp
    | sqlError => simp [retryUpdateRewards, updateRewards]
    | executed => simp at hfs

/-- A call tells the truth exactly when it reports an error, or every miner of the batch has a row and the statement
itself does not fail or has only zeros to add.  After any failing calls and an executed one, the retry loop has
ended, and it has applied its batch exactly when every miner of the batch has a row and none of the failures was one
of the statement itself, or there were only zeros to add. -/
theorem updateRewards_truthful_iff (batch : List UpdateReward) (db : Database) :
    (∀ o, Truthful o batch db ↔
        (o = .noConnection ∨ o = .interactError) ∨
          RowsPresent batch db.rewards ∧ (¬ SqlFails o batch db ∨ ∀ u ∈ batch, u.balance = 0)) ∧
      ∀ fs db', CallOutcome.executed ∉ fs → updateRewardsQuery batch db = some ((), db') →
        ∃ db'', retryUpdateRewards batch (fs ++ [.executed]) db = some db'' ∧
          (Applied batch db.rewards db''.rewards ↔
            RowsPresent batch db.rewards ∧ (.sqlError ∉ fs ∨ ∀ u ∈ batch, u.balance = 0)) := by
  refine ⟨fun o => truthful_iff o batch db, fun fs db' hfs hq => ⟨_, retry_spec hq hfs, ?_⟩⟩
  refine and_congr_right fun hrows => ?_
  by_cases h : CallOutcome.sqlError ∈ fs
  · simp [h, credited_self_iff, creditsNothing_iff hrows]
  · simp [h, (updateRewardsQuery_spec hq).1]

theorem updateRewards_truthful_single :
    ∃ db'', retryUpdateRewards [⟨1, 500⟩, ⟨1, 20⟩] ([.noConnection, .interactError] ++ [.executed])
      (Database.single (filled 0) 7) = some db'' ∧
        Applied [⟨1, 500⟩, ⟨1, 20⟩] (Database.single (filled 0) 7).rewards db''.rewards := by
  have hsome : (updateRewardsQuery [⟨1, 500⟩, ⟨1, 20⟩] (Database.single (filled 0) 7)).isSome := by decide
  obtain ⟨⟨⟨⟩, db'⟩, hq⟩ := Option.isSome_iff_exists.1 hsome
  obtain ⟨db'', hretry, hiff⟩ := (updateRewards_truthful_iff _ _).2 [.noConnection, .interactError] db' (by decide) hq
  exact ⟨db'', hretry, hiff.2 ⟨by unfold RowsPresent; decide, Or.inl (by decide)⟩⟩

/-- A statement that fails, say on a lock timeout, is reported as `Ok`; the loop stops and the credit is lost.  So is
a statement that is executed and finds no row of the miner. -/
theorem updateRewards_not_truthful :
    ¬ Truthful .sqlError [⟨1, 500⟩] (Database.single (filled 0) 7) ∧
      ¬ Truthful .executed [⟨99, 500⟩] (Database.single (filled 0) 7) ∧
      ∃ db'', retryUpdateRewards [⟨1, 500⟩] ([.sqlError] ++ [.executed]) (Database.single (filled 0) 7) = some db'' ∧
        db''.balance 1 = 7 := by
  refine ⟨fun h => ?_, fun h => ?_, Database.single (filled 0) 7, rfl, by decide⟩
  · have hvalue := ((h.1 rfl).2 1).2 (by decide)
    exact absurd hvalue (by decide)
  · have hrow : (Database.single (filled 0) 7).rewards.Has 99 := (h.1 (by decide)).1 ⟨99, 500⟩ (by simp)
    exact absurd hrow (by decide)

end BitzPool
