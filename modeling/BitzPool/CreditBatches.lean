import BitzPool.MineSuccess
import BitzPool.Lib.Run

/-!
# Crediting a list in batches

`pool_mine_success_system` credits what a round earned in batches of 200.  A batch adds to every row what it lists for
the row's miner, and what a list holds for a miner depends neither on how the list is cut nor on its order.  So, when no
balance overflows, the batches of every cut are accepted one after the other, and they leave the table that crediting
the entries one at a time leaves (`batches_eq_one_by_one`).
-/

namespace BitzPool

open Keyed Split Transition

/-- The abstract credit of one entry: its amount goes to the row of its miner. -/
def creditOne (t : Table Reward.minerId) (u : UpdateReward) : Table Reward.minerId :=
  t.update (fun r => if r.minerId = u.minerId then { r with balance := r.balance + u.balance } else r) fun r => by
    split <;> rfl

/-- A row with all that a list holds for its miner on top. -/
def creditRow (us : List UpdateReward) (r : Reward) : Reward :=
  { r with balance := UInt64.ofNat (r.balance.toNat + batchSum us r.minerId) }

@[simp] theorem minerId_creditRow (us : List UpdateReward) (r : Reward) : (creditRow us r).minerId = r.minerId := rfl

/-- A list takes no balance past its column. -/
def NoOverflow (us : List UpdateReward) (db : Database) : Prop :=
  ∀ r ∈ db.rewards.rows, r.balance.toNat + batchSum us r.minerId < 2 ^ 64

instance (us : List UpdateReward) (db : Database) : Decidable (NoOverflow us db) :=
  inferInstanceAs (Decidable (∀ r ∈ db.rewards.rows, _))

/-- The task, coming to the calls that credit the batches `bs`, makes them one after the other, and what it leaves
differs from the database before in the table of rewards only, which is then `t`. -/
def Leaves (bs : List (List UpdateReward)) (db : Database) (t : Table Reward.minerId) : Prop :=
  ∀ todo, ∃ db', run MineTask.proceed (db, ⟨bs.map .updateRewards ++ todo, false⟩) (bs.map fun _ => .executed) =
      some (db', ⟨todo, false⟩) ∧
    db'.rewards = t ∧ db' = { db with rewards := db'.rewards, credits := db'.credits }

theorem batchSum_perm {us us' : List UpdateReward} (h : us.Perm us') (id : MinerId) :
    batchSum us id = batchSum us' id :=
  sumAt_perm h id

theorem batchSum_cons (u : UpdateReward) (us : List UpdateReward) (id : MinerId) :
    batchSum (u :: us) id = (if u.minerId = id then u.balance.toNat else 0) + batchSum us id :=
  sumAt_cons u us id

theorem toNat_creditRow {us : List UpdateReward} {r : Reward} (h : r.balance.toNat + batchSum us r.minerId < 2 ^ 64) :
    (creditRow us r).balance.toNat = r.balance.toNat + batchSum us r.minerId := by
  rw [creditRow, UInt64.toNat_ofNat', Nat.mod_eq_of_lt h]

theorem creditRow_of_forall_ne {us : List UpdateReward} {r : Reward} (h : ∀ u ∈ us, u.minerId ≠ r.minerId) :
    creditRow us r = r := by
  have hsum : batchSum us r.minerId = 0 := sumAt_eq_zero h
  rw [creditRow, hsum, Nat.add_zero, UInt64.ofNat_toNat]

theorem map_creditRow_nil (rows : List Reward) : rows.map (creditRow []) = rows := by
  have h : ∀ r ∈ rows, creditRow [] r = r := fun r _ => creditRow_of_forall_ne (by simp)
  rw [List.map_congr_left h, List.map_id']

/-- The entries of two lists are credited one list after the other. -/
theorem creditRow_append {us us' : List UpdateReward} {r : Reward}
    (h : r.balance.toNat + batchSum us r.minerId < 2 ^ 64) :
    creditRow us' (creditRow us r) = creditRow (us ++ us') r := by
  have hbalance := toNat_creditRow h
  rw [creditRow, hbalance, minerId_creditRow, Nat.add_assoc, ← batchSum_append]
  rfl

/-! ### One entry at a time -/

private theorem creditRow_cons (u : UpdateReward) (us : List UpdateReward) (r : Reward) :
    creditRow us (if r.minerId = u.minerId then { r with balance := r.balance + u.balance } else r) =
      creditRow (u :: us) r := by
  by_cases h : r.minerId = u.minerId
  · rw [if_pos h, creditRow, creditRow, batchSum_cons, if_pos h.symm, ← Nat.add_assoc]
    congr 1
    apply UInt64.toNat_inj.1
    simp only [UInt64.toNat_ofNat', UInt64.toNat_add]
    omega
  · rw [if_neg h, creditRow, creditRow, batchSum_cons, if_neg (Ne.symm h), Nat.zero_add]

/-- Crediting the entries one at a time adds to each row what the list holds for its miner. -/
theorem rows_foldl_creditOne (us : List UpdateReward) (t : Table Reward.minerId) :
    (us.foldl creditOne t).rows = t.rows.map (creditRow us) := by
  induction us generalizing t with
  | nil => rw [List.foldl_nil, map_creditRow_nil]
  | cons u us ih =>
    rw [List.foldl_cons, ih, creditOne, Table.update, List.map_map]
    exact List.map_congr_left fun r _ => creditRow_cons u us r

/-! ### Batch after batch -/

/-- An accepted batch. -/
theorem updateRewardsQuery_of_noOverflow {batch : List UpdateReward} {db : Database} (hne : batch ≠ [])
    (h : NoOverflow batch db) :
    ∃ db', updateRewardsQuery batch db = some ((), db') ∧ db'.rewards.rows = db.rewards.rows.map (creditRow batch) ∧
      db' = { db with rewards := db'.rewards, credits := db'.credits } := by
  have hlt : ∀ r ∈ db.rewards.rows, newBalance batch r < 2 ^ 64 := by
    intro r hr
    rw [newBalance_eq]
    exact h r hr
  refine ⟨_, if_pos ⟨hne, hlt⟩, ?_, rfl⟩
  apply List.map_congr_left
  intro r _
  rw [newBalance_eq]
  rfl

/-- By induction on the batches: none is rejected, and each adds its sums to those of the batches before it. -/
private theorem run_batches {bs : List (List UpdateReward)} (hne : ∀ batch ∈ bs, batch ≠ []) {db : Database}
    (h : NoOverflow bs.flatten db) (todo : List MineStmt) :
    ∃ db', run MineTask.proceed (db, ⟨bs.map .updateRewards ++ todo, false⟩) (bs.map fun _ => .executed) =
        some (db', ⟨todo, false⟩) ∧
      db'.rewards.rows = db.rewards.rows.map (creditRow bs.flatten) ∧
        db' = { db with rewards := db'.rewards, credits := db'.credits } := by
  induction bs generalizing db with
  | nil =>
    refine ⟨db, rfl, ?_, rfl⟩
    rw [List.flatten_nil, map_creditRow_nil]
  | cons batch bs ih =>
    rw [List.flatten_cons] at h ⊢
    have hbatch : NoOverflow batch db := by
      intro r hr
      have := h r hr
      rw [batchSum_append] at this
      omega
    obtain ⟨db₁, hquery, hrows₁, he₁⟩ := updateRewardsQuery_of_noOverflow (hne batch (List.mem_cons_self ..)) hbatch
    have hrest : NoOverflow bs.flatten db₁ := by
      intro r₁ hr₁
      rw [hrows₁] at hr₁
      obtain ⟨r, hr, rfl⟩ := List.mem_map.1 hr₁
      have := h r hr
      rw [toNat_creditRow (hbatch r hr), minerId_creditRow, Nat.add_assoc, ← batchSum_append]
      exact this
    obtain ⟨db', hrun, hrows, he⟩ := ih (fun b hb => hne b (List.mem_cons_of_mem _ hb)) hrest
    refine ⟨db', ?_, ?_, ?_⟩
    · have hcall : MineTask.proceed (db, ⟨.updateRewards batch :: (bs.map .updateRewards ++ todo), false⟩) .executed =
          some (db₁, ⟨bs.map .updateRewards ++ todo, false⟩) := by
        simp [MineTask.proceed, MineTask.call, MineStmt.exec, updateRewards, hquery, retrying]
      rw [List.map_cons, List.map_cons, List.cons_append, run_cons]
      exact ⟨_, hcall, hrun⟩
    · rw [hrows, hrows₁, List.map_map]
      exact List.map_congr_left fun r hr => creditRow_append (hbatch r hr)
    · rw [he, he₁]

private theorem leaves_of_perm {us : List UpdateReward} {db : Database} (h : NoOverflow us db)
    {bs : List (List UpdateReward)} (hne : ∀ batch ∈ bs, batch ≠ []) (hperm : bs.flatten.Perm us) :
    Leaves bs db (us.foldl creditOne db.rewards) := by
  intro todo
  have hsum : ∀ id, batchSum bs.flatten id = batchSum us id := batchSum_perm hperm
  have hflat : NoOverflow bs.flatten db := by
    intro r hr
    rw [hsum]
    exact h r hr
  obtain ⟨db', hrun, hrows, he⟩ := run_batches hne hflat todo
  refine ⟨db', hrun, ?_, he⟩
  have hsame : creditRow bs.flatten = creditRow us := by
    funext r
    rw [creditRow, creditRow, hsum]
  have hrows' : db'.rewards.rows = (us.foldl creditOne db.rewards).rows := by
    rw [rows_foldl_creditOne, hrows, hsame]
  exact Table.eq_of_rows hrows'

/-- Whatever the size of the batches and the order of the entries, crediting a list in batches, or each entry with a
statement of its own, leaves the table in which the entries were credited one at a time; there every row has what the
list holds for its miner on top, and those of other miners are unchanged. -/
theorem batches_eq_one_by_one (us : List UpdateReward) (db : Database) (h : NoOverflow us db) :
    (∀ us', us'.Perm us → (∀ n, 0 < n → Leaves (chunks n us') db (us.foldl creditOne db.rewards)) ∧
        Leaves (us'.map fun u => [u]) db (us.foldl creditOne db.rewards)) ∧
      ∃ row : Reward → Reward, (us.foldl creditOne db.rewards).rows = db.rewards.rows.map row ∧
        ∀ r ∈ db.rewards.rows, (row r).minerId = r.minerId ∧
          (row r).balance.toNat = r.balance.toNat + batchSum us r.minerId ∧
            ((∀ u ∈ us, u.minerId ≠ r.minerId) → row r = r) := by
  refine ⟨fun us' hperm => ⟨fun n hn => ?_, ?_⟩, creditRow us, rows_foldl_creditOne us db.rewards, fun r hr => ?_⟩
  · apply leaves_of_perm h
    · intro batch hbatch
      exact ne_nil_of_mem_chunks hn hbatch
    · rw [flatten_chunks hn]
      exact hperm
  · apply leaves_of_perm h
    · intro batch hbatch
      obtain ⟨u, -, rfl⟩ := List.mem_map.1 hbatch
      exact List.cons_ne_nil u []
    · rw [← List.flatMap_def, List.flatMap_singleton']
      exact hperm
  · exact ⟨rfl, toNat_creditRow (h r hr), creditRow_of_forall_ne⟩

theorem batches_eq_one_by_one_example :
    ∃ db', run MineTask.proceed
        (Database.single (filled 0) 7, ⟨(chunks 2 [⟨1, 500⟩, ⟨2, 9⟩, ⟨1, 20⟩]).map .updateRewards, false⟩)
        [.executed, .executed] = some (db', ⟨[], false⟩) ∧
      db'.rewards.rows = [⟨1, 527⟩] := by
  obtain ⟨db', hrun, hrewards, -⟩ := ((batches_eq_one_by_one [⟨1, 20⟩, ⟨1, 500⟩, ⟨2, 9⟩] (Database.single (filled 0) 7)
    (by decide)).1 [⟨1, 500⟩, ⟨2, 9⟩, ⟨1, 20⟩] (by decide)).1 2 (by decide) []
  refine ⟨db', hrun, ?_⟩
  rw [hrewards]
  decide

end BitzPool
