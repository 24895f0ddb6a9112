import BitzPool.ServerBooks
import BitzPool.Startup

/-!
# Crashes

The process of the server can end at any moment: with its memory go the queue of claims, the mined rewards that are being
paid, and the transactions it waits for.  `Deployment` is a database and a chain with one process after another at work on
them: `main` validates, spawns the tasks, the server runs, until the process ends and is started again.  What an ended
process has sent may still be finalised.

A lookup of the pool that fails makes `main` insert a second row for it, and go on; from then on `update_pool_claimed`
changes two rows, takes that for an error, and is called again and again (`Server.stepMore`).

A crash loses credits and claims rows; it never makes any up.  At every moment of every run, whatever calls fail, the
balance of a miner and its claims, with a debit that has no claims row yet and the earnings that are to be credited still,
are at most its earnings and commissions (`never_more_than_earned`).
-/

namespace BitzPool

open Keyed Split Database Transition

/-! ### The account of a miner -/

namespace Treasury

/-- A credit adds at most its batch, whether or not the statement is executed and the miner has a balance. -/
theorem balance_le_of_updateRewards {o : CallOutcome} {batch : List UpdateReward} {db db' : Database}
    (h : updateRewards o batch db = (.ok (), db')) (id : MinerId) :
    db'.balance id ≤ db.balance id + batchSum batch id ∧ db'.earned id = db.earned id ∧
      db'.claimed id = db.claimed id := by
  rcases updateRewards_ok h with ⟨-, rfl⟩ | ⟨-, hq⟩
  · exact ⟨Nat.le_add_right _ _, rfl, rfl⟩
  · obtain ⟨hc, -, he⟩ := updateRewardsQuery_spec hq
    refine ⟨?_, by rw [he]; rfl, by rw [he]; rfl⟩
    by_cases hid : db.rewards.Has id
    · exact ((hc id).2 hid).le
    · rw [Database.balance, Table.value_of_not_has (mt (hc id).1.1 hid)]
      exact Nat.zero_le _

/-- The account of a miner has no more than what it earned, now and with the commissions of `earlier` processes. -/
structure Within (earlier : List UpdateReward) (s : Treasury) : Prop where
  known : s.Known
  first : EarningsFirst s.mine.todo
  ahead : ∀ id, earningsToCome s.mine.todo id ≤ creditsToCome s.mine.todo id
  within : ∀ id, s.db.balance id + s.db.claimed id + s.claim.claimPending id + uncredited s.mine.todo id ≤
    s.db.earned id + batchSum s.commissions id + batchSum earlier id

variable {su : Setup} {s s' : Treasury} {a : Action} {earlier : List UpdateReward}

private theorem mineStep_within {o : CallOutcome} {db db' : Database} {t t' : MineTask} (h : MineStep o db t db' t')
    (id : MinerId) : db'.claimed id = db.claimed id ∧
      db'.balance id + creditsToCome t'.todo id + (db.earned id + earningsToCome t.todo id) ≤
        db.balance id + creditsToCome t.todo id + (db'.earned id + earningsToCome t'.todo id) := by
  cases h with
  | stuck => exact ⟨rfl, Nat.le_refl _⟩
  | other hl hs hmore =>
    refine ⟨claimed_eq hl.claims id, ?_⟩
    rw [balance_eq hl.rewards, earned_eq hl.earnings, creditsToCome_append, earningsToCome_append,
      (toCome_of_idle hmore id).1, (toCome_of_idle hmore id).2, creditsToCome_cons, earningsToCome_cons, hs.1, hs.2.1]
    simp [batchSum]
  | @earnings batch todo =>
    refine ⟨rfl, ?_⟩
    have hbal : ({ db with earnings := db.earnings ++ batch } : Database).balance id = db.balance id := rfl
    have hearned : ({ db with earnings := db.earnings ++ batch } : Database).earned id =
        db.earned id + sumAt InsertEarning.minerId (fun e => e.amount.toNat) batch id := sumAt_append _ _ _
    rw [creditsToCome_cons, earningsToCome_cons, hbal, hearned]
    simp only [MineStmt.credits, MineStmt.earnings, batchSum, sumAt_nil]
    omega
  | @credit batch todo db' h =>
    obtain ⟨h1, h2, h3⟩ := balance_le_of_updateRewards h id
    refine ⟨h3, ?_⟩
    rw [creditsToCome_cons, earningsToCome_cons, h2]
    simp only [MineStmt.credits, MineStmt.earnings, sumAt_nil]
    omega
  | pool h =>
    rw [creditsToCome_cons, earningsToCome_cons]
    rcases updatePoolRewards_ok h with ⟨-, rfl⟩ | ⟨p, p', -, -, -, rfl⟩
    · refine ⟨rfl, ?_⟩
      simp [MineStmt.credits, MineStmt.earnings, batchSum]
    · refine ⟨rfl, ?_⟩
      simp only [MineStmt.credits, MineStmt.earnings, batchSum, sumAt_nil, Nat.zero_add]
      exact Nat.le_refl _

private theorem payoutStep_within {cfg : Config} {r : Round} {db db' : Database} {i : PayoutInput}
    {pc pc' : PayoutPc} {msgs : List MessageInternalMineSuccess} (h : PayoutStep cfg r db i pc db' pc' msgs) (id : MinerId) :
    db'.claimed id = db.claimed id ∧ db'.earned id = db.earned id ∧
      db'.balance id ≤ db.balance id + batchSum (commissionCredited cfg pc pc') id := by
  cases h with
  | other hl _ _ =>
    refine ⟨claimed_eq hl.claims id, earned_eq hl.earnings id, ?_⟩
    rw [balance_eq hl.rewards id]
    exact Nat.le_add_right _ _
  | credit h =>
    obtain ⟨h1, h2, h3⟩ := balance_le_of_updateRewards h id
    exact ⟨h3, h2, h1⟩
  | send => exact ⟨rfl, rfl, Nat.le_add_right _ _⟩

/-- No step credits more than what is recorded. -/
theorem Within.step (hs : s.Within earlier) (h : Step su s a s') : s'.Within earlier := by
  have hknown := hs.known.step h
  cases h with
  | claim hstep =>
    refine ⟨hknown, hs.first, hs.ahead, fun id => ?_⟩
    have hold := hs.within id
    obtain ⟨hearned, hsum⟩ := claimStep_reconciled hstep hs.known.has id
    simp only at hearned hsum hold ⊢
    omega
  | payout _ hstep =>
    refine ⟨hknown, hs.first, hs.ahead, fun id => ?_⟩
    have hold := hs.within id
    obtain ⟨h1, h2, h3⟩ := payoutStep_within hstep id
    simp only [batchSum, sumAt_append] at hold h3 ⊢
    omega
  | receive _ hrecv =>
    obtain ⟨htodo, hfirst, hsame, -⟩ := receive_reconciled hrecv
    refine ⟨hknown, hfirst, fun id => (hsame id).ge, fun id => ?_⟩
    have hold := hs.within id
    simp only [htodo, uncredited, hsame id, Nat.sub_self] at hold ⊢
    exact hold
  | mineCall hstep =>
    obtain ⟨hfirst, hahead⟩ := mineStep_earningsFirst hstep hs.first hs.ahead
    refine ⟨hknown, hfirst, hahead, fun id => ?_⟩
    have hold := hs.within id
    obtain ⟨h1, h2⟩ := mineStep_within hstep id
    have h3 := hs.ahead id
    have h4 := hahead id
    simp only [uncredited] at hold ⊢
    omega
  | @signup o id pubkey =>
    obtain ⟨-, hbal, -, -, hearn, hclaims, -, -⟩ := signupUserTransaction_spec o id pubkey s.db
    refine ⟨hknown, hs.first, hs.ahead, fun id' => ?_⟩
    have hold := hs.within id'
    simp only [hbal, earned_eq hearn, claimed_eq hclaims] at hold ⊢
    exact hold
  | _ => exact ⟨hknown, hs.first, hs.ahead, hs.within⟩

theorem Within.idles {t : Treasury} (hs : s.Within earlier) (h : s.Idles t) : t.Within earlier := by
  have hknown : t.Known := hs.known.idles h
  obtain ⟨now, db, hledger, rfl⟩ := h.exists
  refine ⟨hknown, hs.first, hs.ahead, fun id => ?_⟩
  have hold := hs.within id
  simp only [balance_eq hledger.rewards, claimed_eq hledger.claims, earned_eq hledger.earnings]
  exact hold

/-- What is left of an account when the process ends. -/
theorem Within.crash (hs : s.Within earlier) (id : MinerId) :
    s.db.balance id + s.db.claimed id ≤ s.db.earned id + batchSum (s.commissions ++ earlier) id := by
  have hold := hs.within id
  rw [batchSum, sumAt_append]
  simp only [batchSum] at hold
  omega

end Treasury

/-! ### A pool with further rows -/

/-- The row of a pool with a claim added, unless that is past its column. -/
def Pool.addClaimed (amount : UInt64) (p : Pool) : Option Pool :=
  (checkedAdd p.claimedRewards amount).map fun c => { p with claimedRewards := c }

def Pool.addRewards (amount : UInt64) (p : Pool) : Option Pool :=
  (checkedAdd p.totalRewards amount).map fun t => { p with totalRewards := t }

/-- `UPDATE pools .. WHERE authority_pubkey = ?`: all the rows with the key are changed, or none. -/
def StartupMemory.updatePools (f : Pool → Option Pool) (m : StartupMemory) : Option StartupMemory := do
  let p ← m.db.pool.bind f
  let more ← m.more.mapM f
  return ⟨{ m.db with pool := some p }, more⟩

/-- The rows of `pools` with the key of the wallet. -/
def Server.pools (more : List Pool) (s : Server) : StartupMemory := ⟨s.db, more⟩

/-- The server with another row of the pool. -/
def Server.setPool (s : Server) (pool : Option Pool) : Server :=
  { s with serving := s.serving.setDb { s.db with pool := pool } }

/-- A step of the tasks with `more` rows of `pools` that have the key of the wallet.  Both updates of the pool change all
of them; `update_pool_claimed` expects to change one, so that it reports an error when it has changed them, and is called
again. -/
def Server.stepMore (su : ServerSetup) (more : List Pool) (s : Server) (a : Server.Action) : Option (List Pool × Server) :=
  match a, s.claim, s.mine.todo with
  | .claimStep (.call .executed), .poolClaimed tx _ _, _ =>
    match (s.pools more).updatePools (Pool.addClaimed tx.item.amount) with
    | some m => some (m.more, s.setPool m.db.pool)
    | none => some (more, s)
  | .mineCall .executed, _, .updatePoolRewards rewards :: _ =>
    match (s.pools more).updatePools (Pool.addRewards rewards) with
    | some m => (s.step su (.mineCall .executed)).map fun s' => (m.more, s')
    | none => (s.step su (.mineCall .sqlError)).map fun s' => (more, s')
  | _, _, _ => (s.step su a).map fun s' => (more, s')

/-- A step of the tasks: those of `Server.step` when the pool has one row. -/
def Server.stepPools (su : ServerSetup) (more : List Pool) (s : Server) (a : Server.Action) :
    Option (List Pool × Server) :=
  match more with
  | [] => (s.step su a).map fun s' => ([], s')
  | _ :: _ => s.stepMore su more a

/-- A step of the tasks is one of `Server.step`, with the same action or with a failed call in its place, or a call of
`claim_system` that changes at most the row of the pool. -/
theorem Server.stepPools_cases {su : ServerSetup} {more more' : List Pool} {s s' : Server} {a : Server.Action}
    (h : s.stepPools su more a = some (more', s')) :
    s.step su a = some s' ∨ (∃ o, a = .mineCall o ∧ s.step su (.mineCall .sqlError) = some s') ∨
      ∃ o pool, a = .claimStep (.call o) ∧ s' = s.setPool pool := by
  have one : ∀ {b rest}, ((s.step su b).map fun t => (rest, t)) = some (more', s') → s.step su b = some s' := by
    intro b rest hb
    obtain ⟨t, ht, he⟩ := Option.map_eq_some_iff.1 hb
    cases he
    exact ht
  unfold stepPools at h
  split at h
  · exact Or.inl (one h)
  · unfold stepMore at h
    split at h
    · split at h
      · cases h
        exact Or.inr (Or.inr ⟨_, _, rfl, rfl⟩)
      · cases h
        exact Or.inr (Or.inr ⟨_, s.db.pool, rfl, rfl⟩)
    · split at h
      · exact Or.inl (one h)
      · exact Or.inr (Or.inl ⟨_, rfl, one h⟩)
    · exact Or.inl (one h)

/-! ### One process after another -/

/-- What a process is about: `main` validates, or the tasks run, with the further rows of `pools` that have the key of the
wallet.  `chain` has the claim transactions of the processes that have ended. -/
inductive Phase
  | starting (now : ℤ) (chain : Chain) (s : Startup)
  | up (config : Config) (more : List Pool) (s : Server)

/-- `earlier` are the commissions that ended processes have credited, as far as their tasks could tell. -/
structure Deployment where
  phase : Phase
  earlier : List UpdateReward

/-- The server when the tasks are spawned, at a time and with what earlier processes have sent. -/
def Server.spawned (proof : Proof) (db : Database) (now : ℤ) (chain : Chain) : Server :=
  { Server.start proof db with serving.assigning.mining.now := now, claimChain := chain }

/-- The server with the `Config` that `main` has put together. -/
def ServerSetup.withConfig (su : ServerSetup) (config : Config) : ServerSetup :=
  { su with mining := { su.mining with config := config } }

namespace Deployment

/-- `restart` ends the process, whatever it is about, and starts the next one; `land` is the fate of a claim transaction
while `main` validates. -/
inductive Action
  | tick
  | land (tx : ClaimTx) (ok : Bool)
  | validate (input : ValidationInput)
  | spawn
  | server (a : Server.Action)
  | restart (env : StartupEnv)

def step (su : ServerSetup) (d : Deployment) (a : Action) : Option Deployment :=
  match a, d.phase with
  | .tick, .starting now chain s => some { d with phase := .starting (now + 1) chain s }
  | .land tx ok, .starting now chain s => (chain.land? tx ok).map fun c => { d with phase := .starting now c s }
  | .validate input, .starting now chain s =>
    (s.step (.validate input)).map fun s' => { d with phase := .starting now chain s' }
  | .spawn, .starting now chain ⟨env, ⟨db, more⟩, .spawn config⟩ =>
    some { d with phase := .up config more (Server.spawned env.proof db now chain) }
  | .server a, .up config more s =>
    (s.stepPools (su.withConfig config) more a).map fun x => { d with phase := .up config x.1 x.2 }
  | .restart env, .starting now chain s => some { d with phase := .starting now chain ⟨env, s.mem, .getPool⟩ }
  | .restart env, .up _ more s =>
    some ⟨.starting s.mining.now s.claimChain ⟨env, s.pools more, .getPool⟩, s.commissions ++ d.earlier⟩
  | _, _ => none

def start (env : StartupEnv) (db : Database) : Deployment := ⟨.starting 0 ∅ (Startup.start env db), []⟩

def db (d : Deployment) : Database :=
  match d.phase with
  | .starting _ _ s => s.mem.db
  | .up _ _ s => s.db

/-- The rows of `pools` with the key of the wallet. -/
def pools (d : Deployment) : StartupMemory :=
  match d.phase with
  | .starting _ _ s => s.mem
  | .up _ more s => s.pools more

/-- All commissions that were credited, as far as the payout tasks can tell: `update_rewards` also says `Ok` when its
statement has failed, and such a commission counts as well. -/
def commissions (d : Deployment) : List UpdateReward :=
  match d.phase with
  | .starting _ _ _ => d.earlier
  | .up _ _ s => s.commissions ++ d.earlier

/-- What was debited from a miner and has no claims row yet, and what it has earned and is credited still. -/
def inFlight (d : Deployment) (id : MinerId) : ℕ :=
  match d.phase with
  | .starting _ _ _ => 0
  | .up _ _ s => s.claim.claimPending id + uncredited s.mine.todo id

/-- The invariant: the accounts are within what was earned; `main` has validated what it has passed; and the server's
receiver of the commissions has a balance. -/
def Accounted (d : Deployment) : Prop :=
  match d.phase with
  | .starting _ _ s => s.Valid ∧ ∀ id, s.mem.db.balance id + s.mem.db.claimed id ≤ s.mem.db.earned id + batchSum d.earlier id
  | .up config _ s => s.treasury.Within d.earlier ∧ s.db.InStep ∧ s.db.rewards.Has config.commissionsMinerId

variable {su : ServerSetup} {d d' : Deployment} {a : Action}

private theorem startup_account {s s' : Startup} {b : Startup.Action} {earlier : List UpdateReward}
    (hs : s.Valid ∧ ∀ id, s.mem.db.balance id + s.mem.db.claimed id ≤ s.mem.db.earned id + batchSum earlier id)
    (h : Startup.step s b = some s') :
    s'.Valid ∧ ∀ id, s'.mem.db.balance id + s'.mem.db.claimed id ≤ s'.mem.db.earned id + batchSum earlier id := by
  obtain ⟨hvalid, hadds⟩ := hs.1.step h
  refine ⟨hvalid, fun id => ?_⟩
  rw [hadds.balance id, Treasury.claimed_eq hadds.claims, Treasury.earned_eq hadds.earnings]
  exact hs.2 id

theorem spawned_known (proof : Proof) (db : Database) (now : ℤ) (chain : Chain) :
    (Server.spawned proof db now chain).treasury.Known where
  queue hk := by cases hk
  requests hmem _ := by cases hmem
  claim hk := by cases hk
  miner hk := by cases hk

private theorem spawned_within {proof : Proof} {db : Database} {now : ℤ} {chain : Chain} {earlier : List UpdateReward}
    (hdb : ∀ id, db.balance id + db.claimed id ≤ db.earned id + batchSum earlier id) :
    (Server.spawned proof db now chain).treasury.Within earlier where
  known := spawned_known proof db now chain
  first := .nil
  ahead _ := Nat.le_refl _
  within id := hdb id

private theorem server_account {config : Config} {s s' : Server} {b : Server.Action} {earlier : List UpdateReward}
    (hs : s.treasury.Within earlier ∧ s.db.InStep ∧ s.db.rewards.Has config.commissionsMinerId)
    (h : Server.step (su.withConfig config) s b = some s') :
    s'.treasury.Within earlier ∧ s'.db.InStep ∧ s'.db.rewards.Has config.commissionsMinerId := by
  obtain ⟨hwithin, hin, hhas⟩ := hs
  refine ⟨?_, Server.step_inStep hin h, (Server.step_extends h).has hhas⟩
  rcases hb : s.treasuryAction? (su.withConfig config) b with _ | c
  · exact hwithin.idles (Server.treasury_idles h hb)
  · exact hwithin.step (Treasury.step_sound (Server.treasury_step h hb))

/-- The account of a miner does not depend on the pool. -/
private theorem setPool_account {config : Config} {s : Server} {earlier : List UpdateReward}
    (hs : s.treasury.Within earlier ∧ s.db.InStep ∧ s.db.rewards.Has config.commissionsMinerId) (pool : Option Pool) :
    (s.setPool pool).treasury.Within earlier ∧ (s.setPool pool).db.InStep ∧
      (s.setPool pool).db.rewards.Has config.commissionsMinerId := by
  obtain ⟨⟨⟨hqueue, hrequests, hclaim, hminer⟩, hfirst, hahead, hwithin⟩, ⟨hreward, hrow⟩, hhas⟩ := hs
  exact ⟨⟨⟨hqueue, hrequests, hclaim, hminer⟩, hfirst, hahead, hwithin⟩, ⟨hreward, hrow⟩, hhas⟩

theorem Accounted.step (hd : d.Accounted) (h : step su d a = some d') : d'.Accounted := by
  obtain ⟨phase, earlier⟩ := d
  cases phase with
  | starting now chain s =>
    cases a with
    | tick =>
      cases h
      exact hd
    | land tx ok =>
      obtain ⟨c, -, rfl⟩ := Option.map_eq_some_iff.1 h
      exact hd
    | validate input =>
      obtain ⟨s', hs', rfl⟩ := Option.map_eq_some_iff.1 h
      exact startup_account hd hs'
    | restart env =>
      cases h
      exact ⟨⟨hd.1.inStep, trivial⟩, hd.2⟩
    | server b => cases h
    | spawn =>
      obtain ⟨env, ⟨db, more⟩, pc⟩ := s
      cases pc with
      | spawn config =>
        cases h
        obtain ⟨hvalid, hdb⟩ := hd
        obtain ⟨m, hm, hid⟩ := hvalid.passed.miner
        refine ⟨spawned_within hdb, hvalid.inStep, ?_⟩
        rw [← hid]
        exact hvalid.inStep.reward m (Table.find?_eq_some.1 hm).1
      | _ => cases h
  | up config more s =>
    cases a with
    | server b =>
      obtain ⟨⟨more', s'⟩, hs', rfl⟩ := Option.map_eq_some_iff.1 h
      rcases Server.stepPools_cases hs' with hstep | ⟨-, -, hstep⟩ | ⟨-, pool, -, rfl⟩
      · exact server_account hd hstep
      · exact server_account hd hstep
      · exact setPool_account hd pool
    | restart env =>
      cases h
      exact ⟨⟨hd.2.1, trivial⟩, hd.1.crash⟩
    | _ => cases h

/-- However often the process ends, in the middle of whatever it is about, and whichever calls fail: the balance of a
miner and its claims, with a debit that has no claims row yet and the earnings that are credited still, are at most its
earnings and commissions, those included whose statement failed.  While the tasks run, miners and balances are in step,
and the receiver of the commissions has one balance. -/
theorem never_more_than_earned (su : ServerSetup) (env : StartupEnv) {db : Database} {d : Deployment} {as : List Action}
    (hin : db.InStep) (hdb : ∀ id, db.balance id + db.claimed id ≤ db.earned id)
    (h : run (step su) (start env db) as = some d) :
    (∀ id, d.db.balance id + d.db.claimed id + d.inFlight id ≤ d.db.earned id + batchSum d.commissions id) ∧
      ∀ config more s, d.phase = .up config more s →
        s.db.InStep ∧ s.db.addressed config.commissionsMinerId = 1 := by
  have h0 : (start env db).Accounted := ⟨⟨hin, trivial⟩, hdb⟩
  have hd : d.Accounted := run_invariant' (I := Accounted) (fun hd hstep => hd.step hstep) h0 h
  obtain ⟨phase, earlier⟩ := d
  cases phase with
  | starting now chain s => exact ⟨hd.2, by simp⟩
  | up config more s =>
    obtain ⟨hwithin, hstep, hhas⟩ := hd
    refine ⟨fun id => ?_, ?_⟩
    · have hold : s.db.balance id + s.db.claimed id + s.claim.claimPending id + uncredited s.mine.todo id ≤
          s.db.earned id + batchSum s.commissions id + batchSum earlier id := hwithin.within id
      show s.db.balance id + s.db.claimed id + (s.claim.claimPending id + uncredited s.mine.todo id) ≤
        s.db.earned id + batchSum (s.commissions ++ earlier) id
      rw [batchSum, sumAt_append]
      simp only [batchSum] at hold
      omega
    · rintro config' more' s' hup
      cases hup
      refine ⟨hstep, ?_⟩
      obtain ⟨r, hr⟩ := Table.has_iff.1 hhas
      rw [Database.addressed, Table.filter_of_find? hr]
      rfl

def exampleEnv : StartupEnv := ⟨filled 7, Assigning.exampleProof⟩

def validateCalls (n : ℕ) : List Action := List.replicate n (.validate (.call .executed))

/-- A first start, which inserts the rows. -/
def firstStart : List Action :=
  validateCalls 1 ++ [.validate (.insertPool .executed 1)] ++ validateCalls 1 ++ [.validate (.signup .executed 1)] ++
    validateCalls 4 ++ [.spawn]

/-- A round whose challenge has a row. -/
def roundTwo : List Mining.Action :=
  List.replicate 60 .tick ++ Mining.takeSnapshot ++ Mining.sendTx ++ Mining.seeFinalized ⟨0, 0⟩ ++
    [.payout 0 (.answer Mining.exampleAnswer)] ++ List.replicate 2 (.payout 0 (.call .executed)) ++ [.payout 0 .send]

def mineRound : List Server.Action :=
  Server.workOne.map .serving ++ roundTwo.map fun a => .serving (.assigning (.mining a))

/-- Its message is received, and the calls are made up to the credit. -/
def writeEarnings : List Server.Action := [.receive] ++ List.replicate 3 (.mineCall .executed)

/-- A start in which the lookup of the pool fails. -/
def startWithSecondPool : List Action :=
  [.restart exampleEnv, .validate (.call .sqlError), .validate (.insertPool .executed 2)] ++ validateCalls 3 ++ [.spawn]

/-- The process ends when the earnings are written and not credited yet; the next one inserts a second pool. -/
def crashInPayout : List Action :=
  firstStart ++ (mineRound ++ writeEarnings).map .server ++ startWithSecondPool

/-- The credit is lost, the commission is not; the pool has two rows. -/
theorem never_more_than_earned_example :
    ∃ d, run (step Serving.exampleServerSetup) (start exampleEnv Startup.exampleBlank) crashInPayout = some d ∧
      d.pools.more = [⟨2, 0, 0⟩] ∧ d.db.balance 1 = 50 ∧ d.db.earned 1 = 950 ∧
      ∀ id, d.db.balance id + d.db.claimed id + d.inFlight id ≤ d.db.earned id + batchSum d.commissions id := by
  obtain ⟨d, h, hmore, hbalance, hearned⟩ :
      ∃ d, run (step Serving.exampleServerSetup) (start exampleEnv Startup.exampleBlank) crashInPayout = some d ∧
        d.pools.more = [⟨2, 0, 0⟩] ∧ d.db.balance 1 = 50 ∧ d.db.earned 1 = 950 := exists_of_run (by decide +kernel)
  exact ⟨d, h, hmore, hbalance, hearned,
    (never_more_than_earned _ exampleEnv Startup.exampleBlank_inStep (fun _ => Nat.le_refl 0) h).1⟩

end Deployment

end BitzPool
