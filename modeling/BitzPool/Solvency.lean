import BitzPool.Payout
import BitzPool.TreasurySteps

/-!
# The pool is solvent

The commission of a round is credited before its message is sent, the shares of the miners while the message is
processed, and the reward is added to the pool's total last; a claim is debited from the miner before it is added to
the pool's claims.  Counting what these tasks are about to do on either side (`liabilities`, `income`), balances and
claims never exceed rewards; so they do not when nothing is in progress (`solvency`).
-/

namespace BitzPool

open Keyed Database Transition

/-! ### What is in flight -/

/-- What was debited from a miner and not added to the pool's claims yet. -/
def ClaimPc.claimedPending : ClaimPc → ℕ
  | .poolClaimed tx _ _ => tx.item.amount.toNat
  | _ => 0

/-- The commission a payout task has credited for a message it has not sent yet. -/
def PayoutPc.commission : PayoutPc → ℕ
  | .send full _ => (commissionOf full).toNat
  | _ => 0

/-- What the statements to come will credit. -/
def creditSum (todo : List MineStmt) : ℕ := ((todo.flatMap MineStmt.credits).map fun u => u.balance.toNat).sum

/-- What the statements to come will add to the pool's total. -/
def pooledSum (todo : List MineStmt) : ℕ := (todo.map MineStmt.pooled).sum

@[simp] theorem creditSum_append (l l' : List MineStmt) : creditSum (l ++ l') = creditSum l + creditSum l' := by
  simp [creditSum]

@[simp] theorem pooledSum_append (l l' : List MineStmt) : pooledSum (l ++ l') = pooledSum l + pooledSum l' := by
  simp [pooledSum]

theorem creditSum_cons (s : MineStmt) (l : List MineStmt) :
    creditSum (s :: l) = (s.credits.map fun u => u.balance.toNat).sum + creditSum l := by
  simp [creditSum]

theorem pooledSum_cons (s : MineStmt) (l : List MineStmt) : pooledSum (s :: l) = s.pooled + pooledSum l := by
  simp [pooledSum]

private theorem sums_of_idle {l : List MineStmt} (h : ∀ s ∈ l, s.Idle) : creditSum l = 0 ∧ pooledSum l = 0 := by
  obtain ⟨-, h2, h3⟩ := MineStmt.carry_of_idle h
  refine ⟨?_, h3⟩
  rw [creditSum, h2]
  rfl

namespace Treasury

/-- Balances, and what is about to become a balance or a claim. -/
def liabilities (s : Treasury) : ℕ := s.db.totalBalance + s.claim.claimedPending + creditSum s.mine.todo

/-- Rewards that are about to be added to the pool's total; for a message still to be processed, its commission. -/
def income (s : Treasury) : ℕ :=
  (s.payouts.map fun p => p.2.commission).sum + (s.channel.map fun msg => msg.commissions.toNat).sum +
    pooledSum s.mine.todo

/-- The balance sheet, with what is in flight. -/
def Solvent (s : Treasury) : Prop :=
  ∃ p, s.db.pool = some p ∧ s.liabilities + p.claimedRewards.toNat ≤ p.totalRewards.toNat + s.income

/-! ### Steps of the tasks -/

private theorem totalBalance_eq {db db' : Database} (h : db'.rewards = db.rewards) :
    db'.totalBalance = db.totalBalance := by
  rw [totalBalance, totalBalance, h]

private theorem totalBalance_of_updateRewards {o : CallOutcome} {batch : List UpdateReward} {db db' : Database}
    (h : updateRewards o batch db = (.ok (), db')) :
    db'.totalBalance ≤ db.totalBalance + (batch.map fun u => u.balance.toNat).sum ∧ db'.pool = db.pool := by
  rcases updateRewards_ok h with ⟨-, rfl⟩ | ⟨-, hq⟩
  · exact ⟨Nat.le_add_right _ _, rfl⟩
  · obtain ⟨-, hle, he⟩ := updateRewardsQuery_spec hq
    exact ⟨hle, by rw [he]⟩

private theorem claimStep_solvent {now : ℕ} {m m' : ClaimMemory} {i : ClaimInput} {pc pc' : ClaimPc} {p : Pool}
    (h : ClaimStep now m i pc m' pc') (hp : m.db.pool = some p)
    (hhas : ∀ {k id}, pc.miner? = some (k, id) → m.db.rewards.Has id) :
    ∃ p', m'.db.pool = some p' ∧ p'.totalRewards = p.totalRewards ∧
      m'.db.totalBalance + pc'.claimedPending + p'.claimedRewards.toNat ≤
        m.db.totalBalance + pc.claimedPending + p.claimedRewards.toNat := by
  cases h with
  | decrease hq =>
    obtain ⟨-, -, htotal, -, he⟩ := decreaseQuery_spec (hhas rfl) hq
    refine ⟨p, by rw [he]; exact hp, rfl, ?_⟩
    simp only [ClaimPc.claimedPending]
    simp only at htotal
    omega
  | @poolClaimed _ tx _ _ p₀ p' hp₀ htotal hclaimed =>
    rw [hp] at hp₀
    cases hp₀
    refine ⟨p', rfl, htotal, ?_⟩
    have hbal : ({ m.db with pool := some p' } : Database).totalBalance = m.db.totalBalance := rfl
    simp only [ClaimPc.claimedPending, hbal]
    omega
  | addTxn hl => exact ⟨p, hl.pool.trans hp, rfl, by rw [totalBalance_eq hl.rewards]; exact Nat.le_refl _⟩
  | addClaim => exact ⟨p, hp, rfl, Nat.le_refl _⟩
  | _ => exact ⟨p, hp, rfl, Nat.le_refl _⟩

private theorem payoutStep_solvent {cfg : Config} {r : Round} {db db' : Database} {i : PayoutInput}
    {pc pc' : PayoutPc} {msgs : List MessageInternalMineSuccess} (h : PayoutStep cfg r db i pc db' pc' msgs) :
    db'.pool = db.pool ∧ db'.totalBalance + pc.commission ≤
      db.totalBalance + pc'.commission + (msgs.map fun msg => msg.commissions.toNat).sum := by
  have hzero : ∀ {pc : PayoutPc}, (∀ full id, pc ≠ .send full id) → pc.commission = 0 := by
    intro pc hpc
    cases pc with
    | send full id => exact absurd rfl (hpc full id)
    | _ => rfl
  cases h with
  | other hl hpc _ =>
    refine ⟨hl.pool, ?_⟩
    rw [hzero hpc, totalBalance_eq hl.rewards]
    omega
  | credit h =>
    obtain ⟨hle, hpool⟩ := totalBalance_of_updateRewards h
    exact ⟨hpool, hle⟩
  | send => exact ⟨rfl, Nat.le_refl _⟩

private theorem mineStep_solvent {o : CallOutcome} {db db' : Database} {t t' : MineTask} {p : Pool}
    (h : MineStep o db t db' t') (hp : db.pool = some p) :
    ∃ p', db'.pool = some p' ∧ p'.claimedRewards = p.claimedRewards ∧
      db'.totalBalance + creditSum t'.todo + (p.totalRewards.toNat + pooledSum t.todo) ≤
        db.totalBalance + creditSum t.todo + (p'.totalRewards.toNat + pooledSum t'.todo) := by
  cases h with
  | stuck => exact ⟨p, hp, rfl, Nat.le_refl _⟩
  | other hl hs hmore =>
    refine ⟨p, hl.pool.trans hp, rfl, ?_⟩
    rw [totalBalance_eq hl.rewards, creditSum_append, pooledSum_append, (sums_of_idle hmore).1, (sums_of_idle hmore).2,
      creditSum_cons, pooledSum_cons, hs.2.1, hs.2.2]
    simp
  | @earnings batch todo =>
    refine ⟨p, hp, rfl, ?_⟩
    rw [creditSum_cons, pooledSum_cons]
    have hbal : ({ db with earnings := db.earnings ++ batch } : Database).totalBalance = db.totalBalance := rfl
    simp [MineStmt.credits, MineStmt.pooled, hbal]
  | credit h =>
    obtain ⟨hle, hpool⟩ := totalBalance_of_updateRewards h
    refine ⟨p, hpool.trans hp, rfl, ?_⟩
    rw [creditSum_cons, pooledSum_cons]
    simp only [MineStmt.credits, MineStmt.pooled]
    omega
  | pool h =>
    rcases updatePoolRewards_ok h with ⟨h0, -⟩ | ⟨p₀, p', hp₀, htotal, hclaimed, rfl⟩
    · rw [hp] at h0
      cases h0
    · rw [hp] at hp₀
      cases hp₀
      refine ⟨p', rfl, hclaimed, ?_⟩
      have hbal : ({ db with pool := some p' } : Database).totalBalance = db.totalBalance := rfl
      rw [creditSum_cons, pooledSum_cons, hbal, htotal]
      simp only [MineStmt.credits, MineStmt.pooled, List.map_nil, List.sum_nil]
      omega

/-- Receiving a message turns its commission into credits and a reward to be pooled. -/
private theorem receive_solvent {poolId : RowId} {msg : MessageInternalMineSuccess} {socks : Sockets}
    {t t' : MineTask} (h : t.receive poolId msg socks = some t') (halive : t'.dead = false) (hu : UuidsUnique socks)
    (hT : msg.TotalsComputed) (hsum : realHashpowerSum msg.submissions < 2 ^ 64)
    (hsplit : msg.totalRewards.toNat + msg.commissions.toNat = msg.rewards.toNat) :
    t.dead = false ∧ t.todo = [] ∧ creditSum t'.todo + msg.commissions.toNat ≤ pooledSum t'.todo := by
  obtain ⟨hdead, htodo, rfl | ⟨rows, hrows, rfl⟩⟩ := MineTask.receive_eq_some h
  · cases halive
  · refine ⟨hdead, htodo, ?_⟩
    have hle := payout_credits_le hu hT hsum hrows
    rw [creditSum, statements_credits, pooledSum, statements_pooled]
    omega

/-! ### Runs -/

/-- Connections have distinct uuids, and the hashpowers of a snapshot add up to less than `2 ^ 64`. -/
def Regular (_ : Treasury) : Action → Prop
  | .mined r => realHashpowerSum r.submissions < 2 ^ 64
  | .receive socks => UuidsUnique socks
  | _ => True

/-- The invariant; a task that has panicked in the middle of a payout never adds the reward to the pool's total. -/
structure Sound (s : Treasury) : Prop where
  known : s.Known
  payouts : ∀ p ∈ s.payouts, realHashpowerSum p.1.submissions < 2 ^ 64
  channel : ∀ msg ∈ s.channel, msg.TotalsComputed ∧ realHashpowerSum msg.submissions < 2 ^ 64 ∧
    msg.totalRewards.toNat + msg.commissions.toNat = msg.rewards.toNat
  solvent : s.mine.dead = false → s.Solvent

variable {su : Setup} {s s' : Treasury} {a : Action}

private theorem channel_of_payoutStep {cfg : Config} {r : Round} {db db' : Database} {i : PayoutInput}
    {pc pc' : PayoutPc} {msgs : List MessageInternalMineSuccess} (h : PayoutStep cfg r db i pc db' pc' msgs)
    (hr : realHashpowerSum r.submissions < 2 ^ 64) : ∀ msg ∈ msgs, msg.TotalsComputed ∧
      realHashpowerSum msg.submissions < 2 ^ 64 ∧ msg.totalRewards.toNat + msg.commissions.toNat = msg.rewards.toNat := by
  cases h with
  | send =>
    intro msg hmsg
    rw [List.mem_singleton.1 hmsg]
    exact ⟨r.message_totals _ _, hr, r.message_totalRewards _ _⟩
  | _ => rintro msg ⟨⟩

theorem Sound.step (hs : s.Sound) (hC : s.Regular a) (h : Step su s a s') : s'.Sound := by
  have hknown := hs.known.step h
  cases h with
  | claim hstep =>
    refine ⟨hknown, hs.payouts, hs.channel, fun halive => ?_⟩
    obtain ⟨p, hp, hle⟩ := hs.solvent halive
    obtain ⟨p', hp', htotal, hstep'⟩ := claimStep_solvent hstep hp hs.known.has
    refine ⟨p', hp', ?_⟩
    simp only [liabilities, income, htotal] at hle ⊢
    simp only at hstep'
    omega
  | mined =>
    refine ⟨hknown, fun q hq => ?_, hs.channel, fun halive => ?_⟩
    · rcases List.mem_append.1 hq with hq | hq
      · exact hs.payouts q hq
      · rw [List.mem_singleton.1 hq]
        exact hC
    · obtain ⟨p, hp, hle⟩ := hs.solvent halive
      exact ⟨p, hp, by simpa [liabilities, income, PayoutPc.commission] using hle⟩
  | @payout i input r pc pc' db' msgs hi hstep =>
    have hr : realHashpowerSum r.submissions < 2 ^ 64 := hs.payouts _ (List.mem_of_getElem? hi)
    refine ⟨hknown, fun q hq => ?_, fun msg hmsg => ?_, fun halive => ?_⟩
    · rcases List.mem_or_eq_of_mem_set hq with hq | rfl
      · exact hs.payouts q hq
      · exact hr
    · rcases List.mem_append.1 hmsg with hmsg | hmsg
      · exact hs.channel msg hmsg
      · exact channel_of_payoutStep hstep hr msg hmsg
    · obtain ⟨p, hp, hle⟩ := hs.solvent halive
      obtain ⟨hpool, hstep'⟩ := payoutStep_solvent hstep
      refine ⟨p, hpool.trans hp, ?_⟩
      have hset := sum_map_set (y := (r, pc')) hi fun p => p.2.commission
      simp only [liabilities, income, List.map_append, List.sum_append] at hle ⊢
      simp only at hset
      omega
  | @receive socks msg channel t hch hrecv =>
    have hmsg := hs.channel msg (by rw [hch]; exact List.mem_cons_self ..)
    refine ⟨hknown, hs.payouts, fun msg' h' => hs.channel msg' (by rw [hch]; exact List.mem_cons_of_mem _ h'),
      fun halive => ?_⟩
    obtain ⟨hdead, htodo, hcredit⟩ := receive_solvent hrecv halive hC hmsg.1 hmsg.2.1 hmsg.2.2
    obtain ⟨p, hp, hle⟩ := hs.solvent hdead
    refine ⟨p, hp, ?_⟩
    simp only [liabilities, income, hch, htodo, List.map_cons, List.sum_cons] at hle ⊢
    have h1 : creditSum [] = 0 := rfl
    have h2 : pooledSum [] = 0 := rfl
    rw [h1, h2] at hle
    omega
  | mineCall hstep =>
    refine ⟨hknown, hs.payouts, hs.channel, fun halive => ?_⟩
    have hdead : s.mine.dead = false := by
      generalize s.mine = t at hstep
      cases hstep <;> rfl
    obtain ⟨p, hp, hle⟩ := hs.solvent hdead
    obtain ⟨p', hp', hclaimed, hstep'⟩ := mineStep_solvent hstep hp
    refine ⟨p', hp', ?_⟩
    simp only [liabilities, income, hclaimed] at hle ⊢
    omega
  | @signup o id pubkey =>
    obtain ⟨-, -, htotal, hpool, -⟩ := signupUserTransaction_spec o id pubkey s.db
    refine ⟨hknown, hs.payouts, hs.channel, fun halive => ?_⟩
    obtain ⟨p, hp, hle⟩ := hs.solvent halive
    refine ⟨p, hpool.trans hp, ?_⟩
    simpa only [liabilities, income, htotal] using hle
  | _ => exact ⟨hknown, hs.payouts, hs.channel, hs.solvent⟩

private theorem totalBalance_empty {db : Database} (h : EmptyLedger db) : db.totalBalance = 0 := by
  refine List.sum_eq_zero fun x hx => ?_
  obtain ⟨r, hr, rfl⟩ := List.mem_map.1 hx
  rw [h.rewards r hr]
  rfl

theorem Fresh.sound (h : s.Fresh) (hempty : EmptyLedger s.db) : s.Sound := by
  obtain ⟨p, hp, h1, h2⟩ := hempty.pool
  refine ⟨h.known, by rw [h.payouts]; simp, by rw [h.channel]; simp, fun _ => ⟨p, hp, ?_⟩⟩
  rw [liabilities, totalBalance_empty hempty, h.claim, h.mine, h2]
  exact Nat.zero_le _

/-- From an empty ledger, whatever rounds are mined, whoever is connected, signs up or claims, and however the tasks
are interleaved: when no payout and no claim is in progress, the balances and the claims of all miners add up to at
most the pool's rewards. -/
theorem solvency (su : Setup) {s s' : Treasury} {as : List Action} (h0 : s.Fresh) (hempty : EmptyLedger s.db)
    (hC : Along (step su) Regular s as) (h : run (step su) s as = some s') (hquiet : s'.Quiet) :
    ∃ p, s'.db.pool = some p ∧ s'.db.totalBalance + p.claimedRewards.toNat ≤ p.totalRewards.toNat := by
  have hs : s'.Sound := run_invariant (fun hs hC hstep => hs.step hC (step_sound hstep)) (h0.sound hempty) hC h
  obtain ⟨p, hp, hle⟩ := hs.solvent (by rw [hquiet.mine])
  refine ⟨p, hp, ?_⟩
  have hpayouts : (s'.payouts.map fun p => p.2.commission).sum = 0 := by
    refine List.sum_eq_zero fun x hx => ?_
    obtain ⟨q, hq, rfl⟩ := List.mem_map.1 hx
    rcases hquiet.payouts q hq with hq | hq <;> rw [hq] <;> rfl
  simp only [liabilities, income, hpayouts, hquiet.channel, hquiet.mine, hquiet.claim, ClaimPc.claimedPending, creditSum,
    pooledSum, List.flatMap_nil, List.map_nil, List.sum_nil, Nat.add_zero] at hle
  exact hle

instance (s : Treasury) (a : Action) : Decidable (s.Regular a) :=
  match a with
  | .mined r => inferInstanceAs (Decidable (realHashpowerSum r.submissions < 2 ^ 64))
  | .receive socks => inferInstanceAs (Decidable (UuidsUnique socks))
  | .tick | .request _ | .requestStep _ _ | .claimStep _ | .land _ _ | .payoutStep _ _ | .mineCall _ | .signup _ _ _ =>
    isTrue trivial

theorem solvency_example :
    ∃ s', run (step exampleSetup) (start (Database.single (filled 7) 0)) oneRound = some s' ∧
      ∃ p, s'.db.pool = some p ∧ s'.db.totalBalance + p.claimedRewards.toNat ≤ p.totalRewards.toNat := by
  have hend : ∃ s', run (step exampleSetup) (start (Database.single (filled 7) 0)) oneRound = some s' ∧
      (∀ p ∈ s'.payouts, p.2 = .done ∨ p.2 = .dead) ∧ s'.channel = [] ∧ s'.mine = ⟨[], false⟩ ∧ s'.claim = .idle :=
    exists_of_run (by decide +kernel)
  obtain ⟨s', h, h1, h2, h3, h4⟩ := hend
  exact ⟨s', h, solvency exampleSetup (start_fresh _) ⟨⟨_, rfl, rfl, rfl⟩, by decide, rfl, rfl⟩ (by decide +kernel) h
    ⟨h1, h2, h3, h4⟩⟩

end Treasury

end BitzPool
