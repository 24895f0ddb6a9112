import BitzPool.Payout
import BitzPool.TreasurySteps

/-!
# The ledger reconciles

An amount a miner earns is written to `earnings`, credited to the balance, later debited from it and written to
`claims`, by four statements of two tasks; a commission is only credited.  At every moment the balance of each miner,
the claims, a debit without a claims row and the earnings that are not credited yet make up the earnings and the
commissions (`reconciled`); so the balance is earnings plus commissions minus claims when nothing is in flight.
-/

namespace BitzPool

open Keyed Split Database Transition

/-! ### What is in flight for a miner -/

/-- What was debited from a miner and has no claims row yet. -/
def ClaimPc.claimPending (pc : ClaimPc) (id : MinerId) : ℕ :=
  match pc with
  | .poolClaimed tx id' _ | .addTxn tx id' _ | .getTxn tx id' _ => if id' = id then tx.item.amount.toNat else 0
  | .addClaim _ claim => if claim.minerId = id then claim.amount.toNat else 0
  | _ => 0

/-- What the statements to come will credit to a miner. -/
def creditsToCome (todo : List MineStmt) (id : MinerId) : ℕ := batchSum (todo.flatMap MineStmt.credits) id

/-- What the statements to come will write to a miner's earnings. -/
def earningsToCome (todo : List MineStmt) (id : MinerId) : ℕ :=
  sumAt InsertEarning.minerId (fun e => e.amount.toNat) (todo.flatMap MineStmt.earnings) id

/-- What is in a miner's earnings already and not credited yet. -/
def uncredited (todo : List MineStmt) (id : MinerId) : ℕ := creditsToCome todo id - earningsToCome todo id

theorem creditsToCome_append (l l' : List MineStmt) (id : MinerId) :
    creditsToCome (l ++ l') id = creditsToCome l id + creditsToCome l' id := by
  simp [creditsToCome, batchSum]

theorem earningsToCome_append (l l' : List MineStmt) (id : MinerId) :
    earningsToCome (l ++ l') id = earningsToCome l id + earningsToCome l' id := by
  simp [earningsToCome]

theorem creditsToCome_cons (s : MineStmt) (l : List MineStmt) (id : MinerId) :
    creditsToCome (s :: l) id = batchSum s.credits id + creditsToCome l id := by
  simp [creditsToCome, batchSum]

theorem earningsToCome_cons (s : MineStmt) (l : List MineStmt) (id : MinerId) :
    earningsToCome (s :: l) id =
      sumAt InsertEarning.minerId (fun e => e.amount.toNat) s.earnings id + earningsToCome l id := by
  simp [earningsToCome]

theorem toCome_of_idle {l : List MineStmt} (h : ∀ s ∈ l, s.Idle) (id : MinerId) :
    creditsToCome l id = 0 ∧ earningsToCome l id = 0 := by
  obtain ⟨h1, h2, -⟩ := MineStmt.carry_of_idle h
  rw [creditsToCome, earningsToCome, h1, h2]
  exact ⟨rfl, rfl⟩

/-- No earnings are written after the first credit. -/
def EarningsFirst (todo : List MineStmt) : Prop := todo.Pairwise fun a b => a.credits = [] ∨ b.earnings = []

private theorem earningsToCome_eq_zero {l : List MineStmt} (h : ∀ s ∈ l, s.earnings = []) (id : MinerId) :
    earningsToCome l id = 0 := by
  rw [earningsToCome, List.flatMap_eq_nil_iff.2 h]
  rfl

/-- The place of a call in the order of a message. -/
def MineStmt.phase : MineStmt → ℕ
  | .getMinerById _ | .getMinerRewardsById _ => 0
  | .addNewEarningsBatch _ => 1
  | .updateRewards _ => 2
  | .addNewSubmissionsBatch _ => 3
  | .updatePoolRewards _ => 4
  | .getSubmissionIdWithNonce .. | .updateChallengeRewards .. => 5

/-- The calls of a message are made phase by phase. -/
def InPhases (todo : List MineStmt) : Prop := todo.Pairwise fun a b => a.phase ≤ b.phase

private theorem InPhases.append {l k : List MineStmt} {m n : ℕ} (hl : InPhases l) (hle : ∀ a ∈ l, a.phase ≤ m)
    (hk : ∀ b ∈ k, b.phase = n) (hn : m < n) : InPhases (l ++ k) ∧ ∀ a ∈ l ++ k, a.phase ≤ n := by
  refine ⟨List.pairwise_append.2 ⟨hl, ?_, fun a ha b hb => ?_⟩, fun a ha => ?_⟩
  · exact List.pairwise_of_forall_mem_list fun a ha b hb => (hk a ha).trans_le (hk b hb).ge
  · exact (hle a ha).trans (hn.le.trans (hk b hb).ge)
  · rcases List.mem_append.1 ha with ha | ha
    · exact (hle a ha).trans hn.le
    · exact (hk a ha).le

private theorem phase_of_map {α : Type} {f : α → MineStmt} {n : ℕ} (h : ∀ x, (f x).phase = n) (l : List α) :
    ∀ a ∈ l.map f, a.phase = n := by
  intro a ha
  obtain ⟨x, -, rfl⟩ := List.mem_map.1 ha
  exact h x

theorem statements_inPhases (msg : MessageInternalMineSuccess) (rows : PayoutRows) :
    InPhases (statements msg rows) := by
  have hlookups : ∀ a ∈ (msg.submissions.entries.flatMap fun e =>
      [MineStmt.getMinerById e.2.minerId, .getMinerRewardsById e.2.minerId]), a.phase = 0 := by
    intro a ha
    simp only [List.mem_flatMap, List.mem_cons, List.not_mem_nil, or_false] at ha
    obtain ⟨e, -, rfl | rfl⟩ := ha <;> rfl
  have h0 := List.pairwise_of_forall_mem_list fun a ha b hb => (hlookups a ha).trans_le (hlookups b hb).ge
  obtain ⟨h1, hle1⟩ := InPhases.append h0 (fun a ha => (hlookups a ha).le)
    (phase_of_map (f := .addNewEarningsBatch) (n := 1) (fun _ => rfl) (chunks batchSize rows.earnings)) (by decide)
  obtain ⟨h2, hle2⟩ := h1.append hle1 (phase_of_map (f := .updateRewards) (n := 2) (fun _ => rfl) (chunks batchSize rows.rewards)) (by decide)
  obtain ⟨h3, hle3⟩ :=
    h2.append hle2 (phase_of_map (f := .addNewSubmissionsBatch) (n := 3) (fun _ => rfl) (chunks batchSize rows.submissions)) (by decide)
  obtain ⟨h4, hle4⟩ :=
    h3.append hle3 (k := [.updatePoolRewards msg.rewards]) (n := 4) (by simp [MineStmt.phase]) (by decide)
  obtain ⟨h5, -⟩ := h4.append hle4 (k := [.getSubmissionIdWithNonce msg.bestNonce msg.challenge msg.rewards]) (n := 5)
    (by simp [MineStmt.phase]) (by decide)
  simpa [statements] using h5

theorem InPhases.earningsFirst {todo : List MineStmt} (h : InPhases todo) : EarningsFirst todo := by
  refine List.Pairwise.imp ?_ h
  rintro a b hab
  cases a <;> cases b <;> simp_all [MineStmt.credits, MineStmt.earnings, MineStmt.phase]

/-! ### The rows of a payout -/

private theorem passes_rewards {poolId : RowId} {msg : MessageInternalMineSuccess} {socks : Sockets}
    {entries : List ((_ : Uuid) × InternalMessageSubmission)} {passes : List PayoutRows}
    (h : Passes poolId msg socks entries passes) :
    (PayoutRows.concat passes).rewards = (PayoutRows.concat passes).earnings.map (fun e => ⟨e.minerId, e.amount⟩) ∧
      ∀ u ∈ (PayoutRows.concat passes).rewards, ∃ e ∈ entries, u.minerId = e.2.minerId := by
  induction h with
  | nil => exact ⟨rfl, by rintro u ⟨⟩⟩
  | @cons e p entries passes hp _ ih =>
    obtain ⟨earned, -, rfl⟩ := submissionRows_eq_some.1 hp
    obtain ⟨ih1, ih2⟩ := ih
    simp only [PayoutRows.concat, List.flatMap_cons, List.map_append] at ih1 ih2 ⊢
    constructor
    · rw [ih1]
      simp only [connectionRows, List.flatMap_map, ← List.map_eq_flatMap, List.map_map]
      rfl
    · intro u hu
      rcases List.mem_append.1 hu with hu | hu
      · simp only [connectionRows, List.flatMap_map, ← List.map_eq_flatMap] at hu
        obtain ⟨conn, -, rfl⟩ := List.mem_map.1 hu
        exact ⟨e, List.mem_cons_self .., rfl⟩
      · obtain ⟨e', he', h'⟩ := ih2 u hu
        exact ⟨e', List.mem_cons_of_mem _ he', h'⟩

/-- A payout earns and credits the same amounts, to the miners of its snapshot. -/
theorem payoutRows_rewards {poolId : RowId} {msg : MessageInternalMineSuccess} {socks : Sockets} {rows : PayoutRows}
    (h : payoutRows poolId msg socks = some rows) :
    rows.rewards = rows.earnings.map (fun e => ⟨e.minerId, e.amount⟩) ∧
      ∀ u ∈ rows.rewards, ∃ e ∈ msg.submissions.entries, u.minerId = e.2.minerId := by
  obtain ⟨passes, hpasses, rfl⟩ := payoutRows_eq_some.1 h
  exact passes_rewards hpasses

namespace Treasury

/-- The two sides of a miner's account, with what is in flight. -/
def Reconciled (s : Treasury) (id : MinerId) : Prop :=
  s.db.balance id + s.db.claimed id + s.claim.claimPending id + uncredited s.mine.todo id =
    s.db.earned id + batchSum s.commissions id

/-! ### Steps of the tasks -/

theorem balance_eq {db db' : Database} (h : db'.rewards = db.rewards) (id : MinerId) :
    db'.balance id = db.balance id := by
  rw [Database.balance, Database.balance, h]

theorem earned_eq {db db' : Database} (h : db'.earnings = db.earnings) (id : MinerId) :
    db'.earned id = db.earned id := by
  rw [earned, earned, h]

theorem claimed_eq {db db' : Database} (h : db'.claims = db.claims) (id : MinerId) :
    db'.claimed id = db.claimed id := by
  rw [claimed, claimed, h]

/-- A credit whose statement is executed, of miners with balances. -/
theorem balance_of_updateRewards {o : CallOutcome} {batch : List UpdateReward} {db db' : Database}
    (h : updateRewards o batch db = (.ok (), db')) (hok : ¬ SqlFails o batch db)
    (hhas : ∀ u ∈ batch, db.rewards.Has u.minerId) (id : MinerId) :
    db'.balance id = db.balance id + batchSum batch id ∧ db'.earned id = db.earned id ∧
      db'.claimed id = db.claimed id := by
  rcases updateRewards_ok h with ⟨hfail, -⟩ | ⟨-, hq⟩
  · exact absurd hfail hok
  obtain ⟨hc, -, he⟩ := updateRewardsQuery_spec hq
  refine ⟨?_, by rw [he]; rfl, by rw [he]; rfl⟩
  by_cases hid : db.rewards.Has id
  · exact (hc id).2 hid
  · have hzero : batchSum batch id = 0 := sumAt_eq_zero fun u hu => by rintro rfl; exact hid (hhas u hu)
    rw [hzero, Database.balance, Database.balance, Table.value_of_not_has hid,
      Table.value_of_not_has (mt (hc id).1.1 hid)]

theorem claimStep_reconciled {now : ℕ} {m m' : ClaimMemory} {i : ClaimInput} {pc pc' : ClaimPc}
    (h : ClaimStep now m i pc m' pc') (hhas : ∀ {k id}, pc.miner? = some (k, id) → m.db.rewards.Has id)
    (id : MinerId) :
    m'.db.earned id = m.db.earned id ∧ m'.db.balance id + m'.db.claimed id + pc'.claimPending id =
      m.db.balance id + m.db.claimed id + pc.claimPending id := by
  cases h with
  | @decrease o tx id' poolId db' hq =>
    obtain ⟨-, hbal, -, -, he⟩ := decreaseQuery_spec (hhas rfl) hq
    have h1 := hbal id
    have h2 : db'.claimed id = m.db.claimed id := by rw [he]; rfl
    refine ⟨by rw [he]; rfl, ?_⟩
    simp only [ClaimPc.claimPending, h2] at h1 ⊢
    omega
  | poolClaimed => exact ⟨rfl, rfl⟩
  | addTxn hl =>
    rw [balance_eq hl.rewards, earned_eq hl.earnings, claimed_eq hl.claims]
    exact ⟨rfl, rfl⟩
  | @addClaim o tx claim =>
    refine ⟨rfl, ?_⟩
    simp only [claimed, sumAt_append, sumAt_cons, sumAt_nil, ClaimPc.claimPending, Database.balance]
    omega
  | _ => exact ⟨rfl, rfl⟩

private theorem mineStep_reconciled {o : CallOutcome} {db db' : Database} {t t' : MineTask}
    (h : MineStep o db t db' t') (hok : ∀ batch todo, t.todo = .updateRewards batch :: todo → ¬ SqlFails o batch db)
    (hhas : ∀ u ∈ t.todo.flatMap MineStmt.credits, db.rewards.Has u.minerId) (id : MinerId) :
    db'.claimed id = db.claimed id ∧
      db'.balance id + creditsToCome t'.todo id + (db.earned id + earningsToCome t.todo id) =
        db.balance id + creditsToCome t.todo id + (db'.earned id + earningsToCome t'.todo id) := by
  cases h with
  | stuck => exact ⟨rfl, rfl⟩
  | other hl hs hmore =>
    refine ⟨claimed_eq hl.claims id, ?_⟩
    rw [balance_eq hl.rewards, earned_eq hl.earnings, creditsToCome_append, earningsToCome_append,
      (toCome_of_idle hmore id).1, (toCome_of_idle hmore id).2, creditsToCome_cons, earningsToCome_cons, hs.1, hs.2.1]
    simp [batchSum]
  | @earnings batch todo =>
    refine ⟨rfl, ?_⟩
    have hbal : ({ db with earnings := db.earnings ++ batch } : Database).balance id = db.balance id := rfl
    have hearned : ({ db with earnings := db.earnings ++ batch } : Database).earned id =
        db.earned id + sumAt InsertEarning.minerId (fun e => e.amount.toNat) batch id := sumAt_append _ _ _
    rw [creditsToCome_cons, earningsToCome_cons, hbal, hearned]
    simp only [MineStmt.credits, MineStmt.earnings, batchSum, sumAt_nil]
    omega
  | @credit batch todo db' h =>
    have hmem : ∀ u ∈ batch, db.rewards.Has u.minerId := fun u hu =>
      hhas u (by rw [List.flatMap_cons]; exact List.mem_append_left _ hu)
    obtain ⟨h1, h2, h3⟩ := balance_of_updateRewards h (hok batch todo rfl) hmem id
    refine ⟨h3, ?_⟩
    rw [creditsToCome_cons, earningsToCome_cons, h1, h2]
    simp only [MineStmt.credits, MineStmt.earnings, sumAt_nil]
    omega
  | pool h =>
    rw [creditsToCome_cons, earningsToCome_cons]
    rcases updatePoolRewards_ok h with ⟨-, rfl⟩ | ⟨p, p', -, -, -, rfl⟩
    · refine ⟨rfl, ?_⟩
      simp [MineStmt.credits, MineStmt.earnings, batchSum]
    · refine ⟨rfl, ?_⟩
      simp only [MineStmt.credits, MineStmt.earnings, batchSum, sumAt_nil, Nat.zero_add]
      rfl

/-- Earnings are written before they are credited. -/
theorem mineStep_earningsFirst {o : CallOutcome} {db db' : Database} {t t' : MineTask}
    (h : MineStep o db t db' t') (hf : EarningsFirst t.todo)
    (hle : ∀ id, earningsToCome t.todo id ≤ creditsToCome t.todo id) :
    EarningsFirst t'.todo ∧ ∀ id, earningsToCome t'.todo id ≤ creditsToCome t'.todo id := by
  cases h with
  | stuck => exact ⟨hf, hle⟩
  | @other s todo more db' hl hs hmore =>
    refine ⟨List.pairwise_append.2 ⟨?_, (List.pairwise_cons.1 hf).2, fun a ha _ _ => Or.inl (hmore a ha).2.1⟩,
      fun id => ?_⟩
    · exact List.pairwise_of_forall_mem_list fun a ha b _ => Or.inl (hmore a ha).2.1
    · have := hle id
      rw [earningsToCome_cons, creditsToCome_cons, hs.1, hs.2.1] at this
      rw [earningsToCome_append, creditsToCome_append, (toCome_of_idle hmore id).1, (toCome_of_idle hmore id).2]
      simpa [batchSum] using this
  | @earnings batch todo =>
    refine ⟨(List.pairwise_cons.1 hf).2, fun id => ?_⟩
    have := hle id
    rw [earningsToCome_cons, creditsToCome_cons] at this
    simp only [MineStmt.credits, batchSum, sumAt_nil] at this ⊢
    omega
  | @credit batch todo db' h =>
    obtain ⟨hhead, htail⟩ := List.pairwise_cons.1 hf
    refine ⟨htail, fun id => ?_⟩
    have := hle id
    rw [earningsToCome_cons, creditsToCome_cons] at this
    -- after a credit there are no earnings to come
    by_cases hbatch : batch = []
    · subst hbatch
      simp only [MineStmt.credits, MineStmt.earnings, batchSum, sumAt_nil] at this ⊢
      omega
    · rw [earningsToCome_eq_zero fun b hb => (hhead b hb).resolve_left hbatch]
      exact Nat.zero_le _
  | pool h =>
    refine ⟨(List.pairwise_cons.1 hf).2, fun id => ?_⟩
    have := hle id
    rw [earningsToCome_cons, creditsToCome_cons] at this
    simp only [MineStmt.credits, MineStmt.earnings, batchSum, sumAt_nil] at this ⊢
    omega

private theorem payoutStep_reconciled {cfg : Config} {r : Round} {db db' : Database} {i : PayoutInput}
    {pc pc' : PayoutPc} {msgs : List MessageInternalMineSuccess} (h : PayoutStep cfg r db i pc db' pc' msgs)
    (hok : ∀ o full id, i = .call o → pc = .updateRewards full id → ¬ SqlFails o (commissionBatch cfg full) db)
    (hhas : db.rewards.Has cfg.commissionsMinerId) (id : MinerId) :
    db'.claimed id = db.claimed id ∧ db'.earned id = db.earned id ∧
      db'.balance id = db.balance id + batchSum (commissionCredited cfg pc pc') id := by
  cases h with
  | other hl hpc hpc' =>
    have hnone : commissionCredited cfg pc pc' = [] := by
      unfold commissionCredited
      split
      · exact absurd rfl (hpc' _ _)
      · rfl
    rw [hnone]
    exact ⟨claimed_eq hl.claims id, earned_eq hl.earnings id, balance_eq hl.rewards id⟩
  | @credit o full id' db' h =>
    obtain ⟨h1, h2, h3⟩ := balance_of_updateRewards h (hok o full id' rfl rfl)
      (by rintro u hu; rw [List.mem_singleton.1 hu]; exact hhas) id
    exact ⟨h3, h2, h1⟩
  | send => exact ⟨rfl, rfl, rfl⟩

/-! ### Runs -/

/-- The batch that a step tries to credit, with the outcome of the call. -/
def creditCall (su : Setup) (s : Treasury) : Action → Option (CallOutcome × List UpdateReward)
  | .payoutStep i (.call o) =>
    match s.payouts[i]? with
    | some (_, .updateRewards full _) => some (o, commissionBatch su.config full)
    | _ => none
  | .mineCall o =>
    match s.mine.todo with
    | .updateRewards batch :: _ => some (o, batch)
    | _ => none
  | _ => none

def minedEntries : Action → List ((_ : Uuid) × InternalMessageSubmission)
  | .mined r => r.submissions.entries
  | _ => []

/-- The statement that credits a batch does not fail, and the miners of a snapshot have balances. -/
def CreditsSucceed (su : Setup) (s : Treasury) (a : Action) : Prop :=
  (∀ c ∈ s.creditCall su a, ¬ SqlFails c.1 c.2 s.db) ∧ ∀ e ∈ minedEntries a, s.db.rewards.Has e.2.minerId

instance (su : Setup) (s : Treasury) (a : Action) : Decidable (s.CreditsSucceed su a) :=
  inferInstanceAs (Decidable ((∀ c ∈ s.creditCall su a, ¬ SqlFails c.1 c.2 s.db) ∧
    ∀ e ∈ minedEntries a, s.db.rewards.Has e.2.minerId))

/-- The invariant: accounts reconcile, and everyone who is about to be credited has a balance. -/
structure InBooks (su : Setup) (s : Treasury) : Prop where
  known : s.Known
  commissions : s.db.rewards.Has su.config.commissionsMinerId
  payouts : ∀ p ∈ s.payouts, ∀ e ∈ p.1.submissions.entries, s.db.rewards.Has e.2.minerId
  channel : ∀ msg ∈ s.channel, ∀ e ∈ msg.submissions.entries, s.db.rewards.Has e.2.minerId
  credits : ∀ u ∈ s.mine.todo.flatMap MineStmt.credits, s.db.rewards.Has u.minerId
  first : EarningsFirst s.mine.todo
  ahead : ∀ id, earningsToCome s.mine.todo id ≤ creditsToCome s.mine.todo id
  reconciled : ∀ id, s.Reconciled id

variable {su : Setup} {s s' : Treasury} {a : Action}

private theorem credits_of_mineStep {o : CallOutcome} {db db' : Database} {t t' : MineTask}
    (h : MineStep o db t db' t') {u : UpdateReward} (hu : u ∈ t'.todo.flatMap MineStmt.credits) :
    u ∈ t.todo.flatMap MineStmt.credits := by
  cases h with
  | stuck => exact hu
  | other _ _ hmore =>
    rw [List.flatMap_append] at hu
    rw [List.flatMap_cons]
    rcases List.mem_append.1 hu with hu | hu
    · obtain ⟨s, hs, hu⟩ := List.mem_flatMap.1 hu
      rw [(hmore s hs).2.1] at hu
      cases hu
    · exact List.mem_append_right _ hu
  | earnings | credit | pool =>
    rw [List.flatMap_cons]
    exact List.mem_append_right _ hu

private theorem submissions_of_payoutStep {cfg : Config} {r : Round} {db db' : Database} {i : PayoutInput}
    {pc pc' : PayoutPc} {msgs : List MessageInternalMineSuccess} (h : PayoutStep cfg r db i pc db' pc' msgs)
    {msg : MessageInternalMineSuccess} (hmsg : msg ∈ msgs) : msg.submissions = r.submissions := by
  cases h with
  | send =>
    rw [List.mem_singleton.1 hmsg]
    rfl
  | _ => cases hmsg

/-- Receiving a message: what is to be credited is what is to be earned, for miners of the message. -/
theorem receive_reconciled {poolId : RowId} {msg : MessageInternalMineSuccess} {socks : Sockets}
    {t t' : MineTask} (h : t.receive poolId msg socks = some t') :
    t.todo = [] ∧ EarningsFirst t'.todo ∧ (∀ id, creditsToCome t'.todo id = earningsToCome t'.todo id) ∧
      ∀ u ∈ t'.todo.flatMap MineStmt.credits, ∃ e ∈ msg.submissions.entries, u.minerId = e.2.minerId := by
  obtain ⟨-, htodo, rfl | ⟨rows, hrows, rfl⟩⟩ := MineTask.receive_eq_some h
  · exact ⟨htodo, .nil, fun _ => rfl, by rintro u ⟨⟩⟩
  · obtain ⟨hrewards, hmem⟩ := payoutRows_rewards hrows
    refine ⟨htodo, (statements_inPhases msg rows).earningsFirst, fun id => ?_, fun u hu => ?_⟩
    · rw [creditsToCome, earningsToCome, statements_credits, statements_earnings, hrewards]
      exact sumAt_map _ (fun _ => rfl) (fun _ => rfl) _ _
    · rw [statements_credits] at hu
      exact hmem u hu

theorem InBooks.step (hs : s.InBooks su) (hC : s.CreditsSucceed su a) (h : Step su s a s') : s'.InBooks su := by
  have hknown := hs.known.step h
  have hext := h.extends
  have hcom := hext.has hs.commissions
  have hpay : ∀ p ∈ s.payouts, ∀ e ∈ p.1.submissions.entries, s'.db.rewards.Has e.2.minerId :=
    fun p hp e he => hext.has (hs.payouts p hp e he)
  have hchan : ∀ msg ∈ s.channel, ∀ e ∈ msg.submissions.entries, s'.db.rewards.Has e.2.minerId :=
    fun msg hmsg e he => hext.has (hs.channel msg hmsg e he)
  have hcred : ∀ u ∈ s.mine.todo.flatMap MineStmt.credits, s'.db.rewards.Has u.minerId :=
    fun u hu => hext.has (hs.credits u hu)
  cases h with
  | claim hstep =>
    refine ⟨hknown, hcom, hpay, hchan, hcred, hs.first, hs.ahead, fun id => ?_⟩
    have hold := hs.reconciled id
    obtain ⟨hearned, hsum⟩ := claimStep_reconciled hstep hs.known.has id
    simp only [Reconciled] at hold ⊢
    simp only at hearned hsum
    omega
  | mined =>
    refine ⟨hknown, hcom, fun p hp => ?_, hchan, hcred, hs.first, hs.ahead, hs.reconciled⟩
    rcases List.mem_append.1 hp with hp | hp
    · exact hpay p hp
    · rw [List.mem_singleton.1 hp]
      exact hC.2
  | @payout i input r pc pc' db' msgs hi hstep =>
    have hr := hpay _ (List.mem_of_getElem? hi)
    refine ⟨hknown, hcom, fun p hp => ?_, fun msg hmsg => ?_, hcred, hs.first, hs.ahead, fun id => ?_⟩
    · rcases List.mem_or_eq_of_mem_set hp with hp | rfl
      · exact hpay p hp
      · exact hr
    · rcases List.mem_append.1 hmsg with hmsg | hmsg
      · exact hchan msg hmsg
      · rw [submissions_of_payoutStep hstep hmsg]
        exact hr
    · have hold := hs.reconciled id
      obtain ⟨h1, h2, h3⟩ := payoutStep_reconciled hstep
        (by rintro o full id' rfl rfl; exact hC.1 (o, commissionBatch su.config full) (by simp [creditCall, hi])) hs.commissions id
      simp only [Reconciled, batchSum, sumAt_append] at hold h3 ⊢
      omega
  | @receive socks msg channel t hch hrecv =>
    obtain ⟨htodo, hfirst, hsame, hmem⟩ := receive_reconciled hrecv
    refine ⟨hknown, hcom, hpay, fun msg' h' => hchan msg' (by rw [hch]; exact List.mem_cons_of_mem _ h'),
      fun u hu => ?_, hfirst, fun id => (hsame id).ge, fun id => ?_⟩
    · obtain ⟨e, he, hid⟩ := hmem u hu
      rw [hid]
      exact hchan msg (by rw [hch]; exact List.mem_cons_self ..) e he
    · have hold := hs.reconciled id
      have h1 : uncredited [] id = 0 := rfl
      have h2 : uncredited t.todo id = 0 := by rw [uncredited, hsame, Nat.sub_self]
      simp only [Reconciled, htodo, h1, h2] at hold ⊢
      exact hold
  | @mineCall o db' t hstep =>
    obtain ⟨hfirst, hahead⟩ := mineStep_earningsFirst hstep hs.first hs.ahead
    refine ⟨hknown, hcom, hpay, hchan, fun u hu => hcred u (credits_of_mineStep hstep hu), hfirst, hahead,
      fun id => ?_⟩
    have hold := hs.reconciled id
    obtain ⟨h1, h2⟩ := mineStep_reconciled hstep
      (fun batch todo htodo => hC.1 (o, batch) (by simp [creditCall, htodo])) hs.credits id
    have h3 := hs.ahead id
    have h4 := hahead id
    simp only [Reconciled, uncredited] at hold ⊢
    omega
  | @signup o id pubkey =>
    obtain ⟨-, hbal, -, -, hearn, hclaims, -, -⟩ := signupUserTransaction_spec o id pubkey s.db
    refine ⟨hknown, hcom, hpay, hchan, hcred, hs.first, hs.ahead, fun id' => ?_⟩
    have hold := hs.reconciled id'
    simp only [Reconciled, hbal, earned_eq hearn, claimed_eq hclaims] at hold ⊢
    exact hold
  | _ => exact ⟨hknown, hcom, hpay, hchan, hcred, hs.first, hs.ahead, hs.reconciled⟩

theorem Fresh.inBooks (h : s.Fresh) (hempty : EmptyLedger s.db) (hhist : s.commissions = [])
    (hcom : s.db.rewards.Has su.config.commissionsMinerId) : s.InBooks su := by
  refine ⟨h.known, hcom, by rw [h.payouts]; rintro p ⟨⟩, by rw [h.channel]; rintro p ⟨⟩, by rw [h.mine]; rintro u ⟨⟩,
    by rw [h.mine]; exact .nil, by rw [h.mine]; exact fun _ => Nat.le_refl _, fun id => ?_⟩
  have hbal : s.db.balance id = 0 := by
    by_cases hid : s.db.rewards.Has id
    · obtain ⟨r, hr⟩ := Table.has_iff.1 hid
      rw [Database.balance, Table.value_of_find? hr, hempty.rewards r (Table.find?_eq_some.1 hr).1]
      rfl
    · rw [Database.balance, Table.value_of_not_has hid]
  rw [Reconciled, hbal, claimed, earned, hempty.earnings, hempty.claims, hhist, h.claim, h.mine]
  rfl

/-- From an empty ledger, whatever is mined, signed up and claimed, and however the tasks are interleaved: the balance
of every miner, with the claims rows, a debit without one, and the earnings that are not credited yet, equals the
earnings rows and the commissions.  When no payout and no claim is in progress, it is an equation of the tables. -/
theorem reconciled (su : Setup) {s s' : Treasury} {as : List Action} (h0 : s.Fresh) (hempty : EmptyLedger s.db)
    (hhist : s.commissions = []) (hcom : s.db.rewards.Has su.config.commissionsMinerId)
    (hC : Along (Treasury.step su) (CreditsSucceed su) s as) (h : run (Treasury.step su) s as = some s') :
    (∀ id, s'.Reconciled id) ∧
      (s'.Quiet → ∀ id, s'.db.balance id + s'.db.claimed id = s'.db.earned id + batchSum s'.commissions id) := by
  have hs : s'.InBooks su :=
    run_invariant (fun hs hC hstep => hs.step hC (step_sound hstep)) (h0.inBooks hempty hhist hcom) hC h
  refine ⟨hs.reconciled, fun hquiet id => ?_⟩
  have := hs.reconciled id
  rw [Reconciled, hquiet.claim, hquiet.mine] at this
  exact this

theorem reconciled_example :
    ∃ s', run (Treasury.step exampleSetup) (start (Database.single (filled 7) 0)) oneRound = some s' ∧
      ∀ id, s'.db.balance id + s'.db.claimed id = s'.db.earned id + batchSum s'.commissions id := by
  have hend : ∃ s', run (Treasury.step exampleSetup) (start (Database.single (filled 7) 0)) oneRound = some s' ∧
      (∀ p ∈ s'.payouts, p.2 = .done ∨ p.2 = .dead) ∧ s'.channel = [] ∧ s'.mine = ⟨[], false⟩ ∧ s'.claim = .idle :=
    exists_of_run (by decide +kernel)
  obtain ⟨s', h, h1, h2, h3, h4⟩ := hend
  exact ⟨s', h, (reconciled exampleSetup (start_fresh _) ⟨⟨_, rfl, rfl, rfl⟩, by decide, rfl, rfl⟩ rfl (by decide)
    (by decide +kernel) h).2 ⟨h1, h2, h3, h4⟩⟩

end Treasury

end BitzPool
