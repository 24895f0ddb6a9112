import BitzPool.UpdateRewards

/-!
# What the statements do to the ledger

For a miner the database keeps a balance, earnings rows and claims rows, and our histories of credits and debits; for
the pool two totals.  Every statement of the server is one of a few kinds: it credits a batch, debits one balance,
adds to a pool total, appends rows, adds a miner with a zero balance, or leaves all of this alone (`SameLedger`).
Whatever it does, miners and balances stay known (`Extends`), and all but the debit only let balances grow (`Grows`).
-/

namespace BitzPool

open Keyed

namespace Database

/-- The sum of a miner's earnings rows. -/
def earned (db : Database) (id : MinerId) : ℕ := sumAt InsertEarning.minerId (fun e => e.amount.toNat) db.earnings id

/-- The sum of a miner's claims rows. -/
def claimed (db : Database) (id : MinerId) : ℕ := sumAt (fun c : ClaimRow => c.minerId) (fun c => c.amount.toNat) db.claims id

/-- All that was ever credited to a miner. -/
def credited (db : Database) (id : MinerId) : ℕ := batchSum db.credits id

/-- All that was ever debited from a miner. -/
def debited (db : Database) (id : MinerId) : ℕ := batchSum db.debits id

/-- Miners and balances that were known stay known. -/
structure Extends (db db' : Database) : Prop where
  miner : ∀ {p m}, db.miners.find? p = some m → db'.miners.find? p = some m
  has : ∀ {id}, db.rewards.Has id → db'.rewards.Has id

/-- The tables of the ledger are the same. -/
structure SameLedger (db db' : Database) : Prop where
  miners : db'.miners = db.miners
  rewards : db'.rewards = db.rewards
  pool : db'.pool = db.pool
  earnings : db'.earnings = db.earnings
  claims : db'.claims = db.claims
  credits : db'.credits = db.credits
  debits : db'.debits = db.debits

theorem Extends.refl (db : Database) : db.Extends db := ⟨id, id⟩

theorem Extends.of_eq {db db' : Database} (hm : db'.miners = db.miners) (hr : db'.rewards = db.rewards) :
    db.Extends db' :=
  ⟨fun h => hm ▸ h, fun h => hr ▸ h⟩

theorem SameLedger.refl (db : Database) : db.SameLedger db := ⟨rfl, rfl, rfl, rfl, rfl, rfl, rfl⟩

theorem SameLedger.extends {db db' : Database} (h : db.SameLedger db') : db.Extends db' :=
  .of_eq h.miners h.rewards

/-- A pubkey is registered when both of its rows exist. -/
def Registered (db : Database) (pubkey : Pubkey) : Prop := (db.rewardOf pubkey).isSome

theorem registered_iff {db : Database} {pubkey : Pubkey} :
    db.Registered pubkey ↔ ∃ m, db.miners.find? pubkey = some m ∧ db.rewards.Has m.id := by
  simp only [Registered, rewardOf, Option.isSome_iff_exists, Option.bind_eq_some_iff, Table.has_iff]
  constructor
  · rintro ⟨r, m, hm, hr⟩
    exact ⟨m, hm, r, hr⟩
  · rintro ⟨m, hm, r, hr⟩
    exact ⟨r, m, hm, hr⟩

theorem Registered.extends {db db' : Database} {pubkey : Pubkey} (h : db.Registered pubkey) (he : db.Extends db') :
    db'.Registered pubkey := by
  obtain ⟨m, hm, hr⟩ := registered_iff.1 h
  exact registered_iff.2 ⟨m, he.miner hm, he.has hr⟩

end Database

open Database

/-! ### Statements that leave the ledger alone -/

theorem interact_sameLedger {β : Type} (o : CallOutcome) {query : Database → Option (β × Database)} {db : Database}
    (hquery : ∀ {a db'}, query db = some (a, db') → db.SameLedger db') : db.SameLedger (interact o query db).2 := by
  rcases interact_cases o query db with ⟨e, he⟩ | ⟨a, db', -, hq, he⟩
  · rw [he]
    exact .refl db
  · rw [he]
    exact hquery hq

theorem addNewChallenge_sameLedger (o : CallOutcome) (c : InsertChallenge) (db : Database) :
    db.SameLedger (addNewChallenge o c db).2 := by
  refine interact_sameLedger o fun hq => ?_
  obtain ⟨t, -, ht⟩ := Option.map_eq_some_iff.1 hq
  cases ht
  exact ⟨rfl, rfl, rfl, rfl, rfl, rfl, rfl⟩

theorem addNewTxn_sameLedger (o : CallOutcome) (t : InsertTxn) (db : Database) :
    db.SameLedger (addNewTxn o t db).2 := by
  refine interact_sameLedger o fun hq => ?_
  cases hq
  exact ⟨rfl, rfl, rfl, rfl, rfl, rfl, rfl⟩

theorem expectRows_db (expected : ℕ → Bool) (e : AppDatabaseError)
    (res : Except AppDatabaseError ℕ × Database) : (expectRows expected e res).2 = res.2 := by
  obtain ⟨_ | n, db⟩ := res
  · rfl
  · simp only [expectRows]
    split <;> rfl

theorem addNewSubmissionsBatch_sameLedger (o : CallOutcome) (batch : List InsertSubmission) (db : Database) :
    db.SameLedger (addNewSubmissionsBatch o batch db).2 := by
  rw [addNewSubmissionsBatch, expectRows_db]
  refine interact_sameLedger o fun hq => ?_
  cases hq
  exact ⟨rfl, rfl, rfl, rfl, rfl, rfl, rfl⟩

/-- A failed call inserts nothing: the only batch without rows is the empty one. -/
theorem addNewSubmissionsBatch_error {o : CallOutcome} {batch : List InsertSubmission} {db db' : Database}
    {e : AppDatabaseError} (h : addNewSubmissionsBatch o batch db = (.error e, db')) : db' = db := by
  rcases expectRows_error h with hi | ⟨n, hn, hi⟩
  · exact interact_error hi
  · have hq := (interact_ok hi).2
    cases hq
    have hnil : batch = [] := by simpa using hn
    rw [hnil, List.append_nil]

theorem updateChallengeRewards_sameLedger (o : CallOutcome) (c : Challenge) (id : ℕ) (rewards : UInt64)
    (db : Database) : db.SameLedger (updateChallengeRewards o c id rewards db).2 := by
  rw [updateChallengeRewards, expectRows_db]
  refine interact_sameLedger o fun hq => ?_
  cases hq
  exact ⟨rfl, rfl, rfl, rfl, rfl, rfl, rfl⟩

theorem addNewChallenge_txns (o : CallOutcome) (c : InsertChallenge) (db : Database) :
    (addNewChallenge o c db).2.txns = db.txns := by
  refine interact_frame Database.txns fun hq => ?_
  obtain ⟨t, -, he⟩ := Option.map_eq_some_iff.1 hq
  cases he
  rfl

theorem addNewSubmissionsBatch_txns (o : CallOutcome) (batch : List InsertSubmission) (db : Database) :
    (addNewSubmissionsBatch o batch db).2.txns = db.txns := by
  rw [addNewSubmissionsBatch, expectRows_db]
  exact interact_frame Database.txns (by rintro _ _ ⟨⟩; rfl)

theorem updateChallengeRewards_txns (o : CallOutcome) (c : Challenge) (id : ℕ) (rewards : UInt64) (db : Database) :
    (updateChallengeRewards o c id rewards db).2.txns = db.txns := by
  rw [updateChallengeRewards, expectRows_db]
  exact interact_frame Database.txns (by rintro _ _ ⟨⟩; rfl)

/-- A sign-up inserts a row into `miners` and one into `rewards`. -/
theorem signupQuery_eq_some {id : MinerId} {pubkey : Pubkey} {db db' : Database} {x : Unit}
    (h : signupQuery id pubkey db = some (x, db')) :
    ∃ miners hunique rewards, db.miners.insert? ⟨id, pubkey, true⟩ = some miners ∧
      db.rewards.insert? ⟨id, 0⟩ = some rewards ∧
        db' = { db with miners := miners, idsUnique := hunique, rewards := rewards } := by
  unfold signupQuery at h
  split at h
  · cases h
  · split at h
    · cases h
    · next miners hm =>
      split at h
      · next rewards _ hr =>
        cases h
        exact ⟨miners, _, rewards, hm, hr, rfl⟩
      · cases h

theorem signupUserTransaction_txns (o : CallOutcome) (id : MinerId) (pubkey : Pubkey) (db : Database) :
    (signupUserTransaction o id pubkey db).2.txns = db.txns := by
  refine interact_frame Database.txns fun hq => ?_
  obtain ⟨miners, hunique, rewards, -, -, rfl⟩ := signupQuery_eq_some hq
  rfl

/-! ### Statements that change one part of it -/

theorem addNewEarningsBatch_ok {o : CallOutcome} {batch : List InsertEarning} {db db' : Database}
    (h : addNewEarningsBatch o batch db = (.ok (), db')) :
    db' = { db with earnings := db.earnings ++ batch } := by
  obtain ⟨n, -, hi⟩ := expectRows_ok h
  have hq := (interact_ok hi).2
  split at hq
  · cases hq
    rfl
  · cases hq

theorem addNewSubmissionsBatch_ok {o : CallOutcome} {batch : List InsertSubmission} {db db' : Database}
    (h : addNewSubmissionsBatch o batch db = (.ok (), db')) :
    db' = { db with submissions := db.submissions ++ batch } := by
  obtain ⟨n, -, hi⟩ := expectRows_ok h
  have hq := (interact_ok hi).2
  cases hq
  rfl

theorem addNewEarningsBatch_error {o : CallOutcome} {batch : List InsertEarning} {db db' : Database}
    {e : AppDatabaseError} (h : addNewEarningsBatch o batch db = (.error e, db')) : db' = db := by
  rcases expectRows_error h with hi | ⟨n, hn, hi⟩
  · exact interact_error hi
  · have hq := (interact_ok hi).2
    split at hq
    · cases hq
      have hnil : batch = [] := by simpa using hn
      rw [hnil, List.append_nil]
    · cases hq

theorem addNewTxn_ok {o : CallOutcome} {txn : InsertTxn} {db db' : Database}
    (h : addNewTxn o txn db = (.ok (), db')) : db' = { db with txns := db.txns ++ [txn] } := by
  have hq := (interact_ok h).2
  cases hq
  rfl

theorem addNewClaim_ok {o : CallOutcome} {now : ℕ} {claim : InsertClaim} {db db' : Database}
    (h : addNewClaim o now claim db = (.ok (), db')) :
    db' = { db with claims := db.claims ++ [{ claim with createdAt := now }] } := by
  have hq := (interact_ok h).2
  cases hq
  rfl

theorem updatePool_some {f : Pool → Option Pool} {db db' : Database} {n : ℕ} (h : updatePool f db = some (n, db')) :
    (db.pool = none ∧ n = 0 ∧ db' = db) ∨
      ∃ p p', db.pool = some p ∧ f p = some p' ∧ n = 1 ∧ db' = { db with pool := some p' } := by
  unfold updatePool at h
  split at h
  · next hp =>
    cases h
    exact Or.inl ⟨hp, rfl, rfl⟩
  · next p hp =>
    obtain ⟨p', hp', he⟩ := Option.map_eq_some_iff.1 h
    cases he
    exact Or.inr ⟨p, p', hp, hp', rfl, rfl⟩

/-- A claim that was added to the pool's total was added to the pool's only row. -/
theorem updatePoolClaimed_ok {o : CallOutcome} {amount : UInt64} {db db' : Database}
    (h : updatePoolClaimed o amount db = (.ok (), db')) :
    ∃ p p', db.pool = some p ∧ p'.totalRewards = p.totalRewards ∧
      p'.claimedRewards.toNat = p.claimedRewards.toNat + amount.toNat ∧ db' = { db with pool := some p' } := by
  obtain ⟨n, hn, hi⟩ := expectRows_ok h
  rcases updatePool_some (interact_ok hi).2 with ⟨_, rfl, _⟩ | ⟨p, p', hp, hf, _, rfl⟩
  · cases hn
  · obtain ⟨c, hc, rfl⟩ := Option.map_eq_some_iff.1 hf
    exact ⟨p, { p with claimedRewards := c }, hp, rfl, checkedAdd_eq_some hc, rfl⟩

/-- A failed call leaves the pool alone: the update of an only row cannot match another number of rows. -/
theorem updatePoolClaimed_error {o : CallOutcome} {amount : UInt64} {db db' : Database} {e : AppDatabaseError}
    (h : updatePoolClaimed o amount db = (.error e, db')) : db' = db := by
  rcases expectRows_error h with hi | ⟨n, hn, hi⟩
  · exact interact_error hi
  · rcases updatePool_some (interact_ok hi).2 with ⟨_, _, rfl⟩ | ⟨p, p', _, _, rfl, _⟩
    · rfl
    · cases hn

theorem updatePoolRewards_ok {o : CallOutcome} {amount : UInt64} {n : ℕ} {db db' : Database}
    (h : updatePoolRewards o amount db = (.ok n, db')) :
    (db.pool = none ∧ db' = db) ∨
      ∃ p p', db.pool = some p ∧ p'.totalRewards.toNat = p.totalRewards.toNat + amount.toNat ∧
        p'.claimedRewards = p.claimedRewards ∧ db' = { db with pool := some p' } := by
  rcases updatePool_some (interact_ok h).2 with ⟨hp, -, rfl⟩ | ⟨p, p', hp, hf, -, rfl⟩
  · exact Or.inl ⟨hp, rfl⟩
  · obtain ⟨t, ht, rfl⟩ := Option.map_eq_some_iff.1 hf
    exact Or.inr ⟨p, { p with totalRewards := t }, hp, checkedAdd_eq_some ht, rfl, rfl⟩

private theorem minerId_decrease (u : UpdateReward) (r : Reward) :
    (if r.minerId = u.minerId then { r with balance := r.balance - u.balance } else r).minerId = r.minerId := by
  split <;> rfl

/-- A debit of a miner with a balance takes the amount from that balance only; it is rejected below zero. -/
theorem decreaseQuery_spec {u : UpdateReward} {db db' : Database} {x : Unit} (hid : db.rewards.Has u.minerId)
    (h : decreaseQuery u db = some (x, db')) :
    u.balance.toNat ≤ db.balance u.minerId ∧
      (∀ id, db'.balance id + (if u.minerId = id then u.balance.toNat else 0) = db.balance id) ∧
      db'.totalBalance + u.balance.toNat = db.totalBalance ∧
      (∀ id, db'.rewards.Has id ↔ db.rewards.Has id) ∧
      db' = { db with rewards := db'.rewards, debits := u :: db.debits } := by
  obtain ⟨r, hr⟩ := Table.has_iff.1 hid
  have hrid : r.minerId = u.minerId := (Table.find?_eq_some.1 hr).2
  simp only [decreaseQuery, hr] at h
  split at h
  · next hle =>
    have hle' : u.balance.toNat ≤ r.balance.toNat := UInt64.le_iff_toNat_le.1 hle
    have hnew : (r.balance - u.balance).toNat = r.balance.toNat - u.balance.toNat := UInt64.toNat_sub_of_le _ _ hle
    cases h
    refine ⟨?_, fun id => ?_, ?_, fun id => Table.has_update (minerId_decrease u), rfl⟩
    · rw [balance, Table.value_of_find? hr]
      exact hle'
    · simp only [balance]
      by_cases hhas : db.rewards.Has id
      · obtain ⟨r', hr'⟩ := Table.has_iff.1 hhas
        have hr'id : r'.minerId = id := (Table.find?_eq_some.1 hr').2
        rw [Table.value_update (minerId_decrease u) hr', Table.value_of_find? hr']
        by_cases he : u.minerId = id
        · rw [← he, hr] at hr'
          cases hr'
          rw [if_pos hrid, if_pos he, hnew]
          omega
        · rw [if_neg (by rw [hr'id]; exact Ne.symm he), if_neg he, Nat.add_zero]
      · have hne : u.minerId ≠ id := by
          rintro rfl
          exact hhas hid
        rw [if_neg hne, Table.value_of_not_has hhas, Table.value_of_not_has (by rwa [Table.has_update (minerId_decrease u)])]
    · have := Table.total_update_single hr (minerId_decrease u)
        (fun r' hne => if_neg (by simpa using hne)) fun r => r.balance.toNat
      rw [if_pos hrid, hnew] at this
      simp only [totalBalance]
      omega
  · cases h

/-- A sign-up adds a miner with a zero balance. -/
theorem signupQuery_spec {id : MinerId} {pubkey : Pubkey} {db db' : Database} {x : Unit}
    (h : signupQuery id pubkey db = some (x, db')) :
    db.Extends db' ∧ (∀ id', db'.balance id' = db.balance id') ∧ db'.totalBalance = db.totalBalance ∧
      db'.pool = db.pool ∧ db'.earnings = db.earnings ∧ db'.claims = db.claims ∧ db'.credits = db.credits ∧
      db'.debits = db.debits := by
  obtain ⟨miners, hunique, rewards, hm, hr, rfl⟩ := signupQuery_eq_some h
  refine ⟨⟨fun {p m} hfind => ?_, fun hhas => (Table.has_insert hr _).2 (Or.inr hhas)⟩, fun id' => ?_, ?_,
    rfl, rfl, rfl, rfl, rfl⟩
  · rw [Table.find?_insert hm, if_neg, hfind]
    rintro rfl
    exact (Table.insert?_eq_some hm).1 (Table.has_iff.2 ⟨m, hfind⟩)
  · simp only [balance, Table.value, Table.find?_insert hr]
    split
    · next he =>
      have hnone : db.rewards.find? id' = none :=
        Table.find?_eq_none.2 (he ▸ (Table.insert?_eq_some hr).1)
      rw [hnone]
      rfl
    · rfl
  · exact Table.total_insert hr _

theorem signupUserTransaction_spec (o : CallOutcome) (id : MinerId) (pubkey : Pubkey) (db : Database) :
    db.Extends (signupUserTransaction o id pubkey db).2 ∧
      (∀ id', (signupUserTransaction o id pubkey db).2.balance id' = db.balance id') ∧
      (signupUserTransaction o id pubkey db).2.totalBalance = db.totalBalance ∧
      (signupUserTransaction o id pubkey db).2.pool = db.pool ∧
      (signupUserTransaction o id pubkey db).2.earnings = db.earnings ∧
      (signupUserTransaction o id pubkey db).2.claims = db.claims ∧
      (signupUserTransaction o id pubkey db).2.credits = db.credits ∧
      (signupUserTransaction o id pubkey db).2.debits = db.debits := by
  unfold signupUserTransaction
  rcases interact_cases o (signupQuery id pubkey) db with ⟨e, he⟩ | ⟨a, db', -, hq, he⟩
  · rw [he]
    exact ⟨.refl db, fun _ => rfl, rfl, rfl, rfl, rfl, rfl, rfl⟩
  · rw [he]
    exact signupQuery_spec hq

/-! ### Changes that debit nobody -/

namespace Database

/-- A number of a miner, by pubkey; 0 for an unknown one. -/
def ofMiner (db : Database) (f : MinerId → ℕ) (pubkey : Pubkey) : ℕ :=
  match db.miners.find? pubkey with
  | some m => f m.id
  | none => 0

def creditedOf (db : Database) : Pubkey → ℕ := db.ofMiner db.credited

def debitedOf (db : Database) : Pubkey → ℕ := db.ofMiner db.debited

theorem balanceOf_eq_ofMiner (db : Database) (pubkey : Pubkey) : db.balanceOf pubkey = db.ofMiner db.balance pubkey := rfl

theorem ofMiner_of_find? {db : Database} {pubkey : Pubkey} {m : Miner} (h : db.miners.find? pubkey = some m)
    (f : MinerId → ℕ) : db.ofMiner f pubkey = f m.id := by
  simp [ofMiner, h]

/-- Every balance is what was credited minus what was debited. -/
def Accounted (db : Database) : Prop := ∀ id, db.balance id + db.debited id = db.credited id

/-- A change that debits nobody. -/
structure Grows (db db' : Database) : Prop where
  ext : db.Extends db'
  debits : db'.debits = db.debits
  balance : ∀ id, db.balance id ≤ db'.balance id
  accounted : db.Accounted → db'.Accounted

theorem Grows.of_eq {db db' : Database} (hm : db'.miners = db.miners) (hr : db'.rewards = db.rewards)
    (hc : db'.credits = db.credits) (hd : db'.debits = db.debits) : db.Grows db' where
  ext := .of_eq hm hr
  debits := hd
  balance id := by rw [Database.balance, Database.balance, hr]
  accounted h id := by
    have := h id
    rwa [Database.balance, debited, credited, hr, hc, hd]

theorem Grows.refl (db : Database) : db.Grows db := .of_eq rfl rfl rfl rfl

theorem SameLedger.grows {db db' : Database} (h : db.SameLedger db') : db.Grows db' :=
  .of_eq h.miners h.rewards h.credits h.debits

theorem ofMiner_mono {db db' : Database} (he : db.Extends db') {f f' : MinerId → ℕ} (hf : ∀ id, f id ≤ f' id)
    (pubkey : Pubkey) : db.ofMiner f pubkey ≤ db'.ofMiner f' pubkey := by
  rcases h : db.miners.find? pubkey with _ | m
  · simp [ofMiner, h]
  · rw [ofMiner_of_find? h, ofMiner_of_find? (he.miner h)]
    exact hf m.id

end Database

theorem extends_of_decrease {u : UpdateReward} {db db' : Database} {x : Unit}
    (h : decreaseQuery u db = some (x, db')) : db.Extends db' := by
  by_cases hid : db.rewards.Has u.minerId
  · obtain ⟨-, -, -, hhas, he⟩ := decreaseQuery_spec hid h
    exact ⟨fun hm => by rw [he]; exact hm, fun {id} hid => (hhas id).2 hid⟩
  · rw [decreaseQuery, Table.find?_eq_none.2 hid] at h
    cases h
    exact .refl _

theorem debited_of_decrease {u : UpdateReward} {db db' : Database} {x : Unit} (hid : db.rewards.Has u.minerId)
    (h : decreaseQuery u db = some (x, db')) (id : MinerId) :
    db'.debited id = (if u.minerId = id then u.balance.toNat else 0) + db.debited id := by
  obtain ⟨-, -, -, -, he⟩ := decreaseQuery_spec hid h
  rw [debited, he]
  exact sumAt_cons _ _ _

/-- A debit is taken from the balance. -/
theorem accounted_of_decrease {u : UpdateReward} {db db' : Database} {x : Unit} (hid : db.rewards.Has u.minerId)
    (h : decreaseQuery u db = some (x, db')) (hacc : db.Accounted) : db'.Accounted := by
  intro id
  obtain ⟨-, hbal, -, -, he⟩ := decreaseQuery_spec hid h
  have h1 := hbal id
  have h2 := hacc id
  have h3 : db'.credited id = db.credited id := by rw [credited, he]; rfl
  rw [debited_of_decrease hid h]
  omega

theorem batchSum_filter_has (batch : List UpdateReward) (t : Table Reward.minerId) (id : MinerId) :
    batchSum (batch.filter fun u => t.Has u.minerId) id = if t.Has id then batchSum batch id else 0 := by
  induction batch with
  | nil => simp [batchSum]
  | cons u batch ih =>
    simp only [batchSum] at ih ⊢
    rw [List.filter_cons, sumAt_cons]
    by_cases hu : u.minerId = id
    · subst hu
      by_cases hhas : t.Has u.minerId <;> simp [hhas, sumAt_cons, ih]
    · by_cases hhas : t.Has u.minerId <;> simp [hhas, sumAt_cons, hu, ih]

theorem grows_of_updateRewards {o : CallOutcome} {batch : List UpdateReward} {db db' : Database}
    (h : updateRewards o batch db = (.ok (), db')) : db.Grows db' := by
  rcases updateRewards_ok h with ⟨-, rfl⟩ | ⟨-, hq⟩
  · exact .refl _
  obtain ⟨hc, -, he⟩ := updateRewardsQuery_spec hq
  have hbal : ∀ id, db'.balance id = db.balance id + if db.rewards.Has id then batchSum batch id else 0 := by
    intro id
    by_cases hid : db.rewards.Has id
    · rw [if_pos hid]
      exact (hc id).2 hid
    · rw [if_neg hid, Database.balance, Database.balance, Table.value_of_not_has hid,
        Table.value_of_not_has (mt (hc id).1.1 hid)]
  refine ⟨⟨fun hm => by rw [he]; exact hm, fun {id} hid => (hc id).1.2 hid⟩, by rw [he], fun id => ?_, fun hacc id => ?_⟩
  · rw [hbal]
    exact Nat.le_add_right _ _
  · have hcred : db'.credited id = (if db.rewards.Has id then batchSum batch id else 0) + db.credited id := by
      rw [credited, he, ← batchSum_filter_has]
      exact sumAt_append _ _ _
    have hdeb : db'.debited id = db.debited id := by rw [debited, he]; rfl
    rw [hbal, hcred, hdeb, ← hacc id]
    omega

theorem grows_of_signup (o : CallOutcome) (id : MinerId) (pubkey : Pubkey) (db : Database) :
    db.Grows (signupUserTransaction o id pubkey db).2 := by
  obtain ⟨hext, hbal, -, -, -, -, hc, hd⟩ := signupUserTransaction_spec o id pubkey db
  refine ⟨hext, hd, fun id' => (hbal id').ge, fun hacc id' => ?_⟩
  rw [hbal, debited, credited, hc, hd]
  exact hacc id'

end BitzPool
