import BitzPool.Distribution
import BitzPool.OtherTasks
import BitzPool.Serving

/-!
# The whole server

`main` spawns the tasks that watch connections, hand out work and mine (`Serving`), `claim_system` and
`pool_mine_success_system`, and serves the requests to sign up and to claim; all of them work on one database and one
map of sockets.  `Server` has them together: messages of mined rewards come from the payout tasks only, they are
processed for the connections that are there, and no table is written but by the statements of the tasks.  What is
left open are the clients, the two kinds of transactions on the chain, the answers of the RPC node, the clock, and the
outcomes of database calls.

A run of the server is a run of `Serving` (`serving_run`).  For the tasks that move rewards a step of the server is one
of `Treasury` (`treasuryAction?`), or leaves the ledger alone (`Step.treasury`).
-/

namespace BitzPool

open Transition Keyed

structure Server where
  serving : Serving
  posts : List (Pubkey × PostSignupPc)
  queue : ClaimsQueue
  tickets : ℕ
  claimChain : Chain
  claims : List RequestPc
  claim : ClaimPc
  /-- the mined rewards that `pool_mine_success_system` has not received yet, with the transaction of each -/
  channel : List (ℕ × MessageInternalMineSuccess)
  mine : MineTask
  /-- a history of the commissions that were credited -/
  commissions : List UpdateReward

def ServerSetup.treasury (su : ServerSetup) : Setup := ⟨su.mining.config, su.mining.fmt, su.verify⟩

namespace Server

/-- `claimRequest` is a request to claim, `landClaim` the fate of a claim transaction. -/
inductive Action
  | serving (a : Serving.Action)
  | post (pubkey : Pubkey)
  | postStep (k : ℕ) (input : SignupInput)
  | claimRequest (r : ClaimRequest)
  | claimRequestStep (i : ℕ) (input : RequestInput)
  | claimStep (input : ClaimInput)
  | landClaim (tx : ClaimTx) (ok : Bool)
  | receive
  | mineCall (o : CallOutcome)

def mining (s : Server) : Mining := s.serving.assigning.mining

def db (s : Server) : Database := s.mining.mem.db

/-- What the tasks that move rewards have of the server. -/
def treasury (s : Server) : Treasury where
  now := s.mining.now.toNat
  db := s.db
  queue := s.queue
  tickets := s.tickets
  chain := s.claimChain
  requests := s.claims
  claim := s.claim
  payouts := s.mining.payouts
  channel := s.channel.map Prod.snd
  mine := s.mine
  commissions := s.commissions

/-- The server after a step of these tasks, the payout tasks apart. -/
def setTreasury (s : Server) (t : Treasury) : Server := { s with
  serving := s.serving.setDb t.db
  queue := t.queue
  tickets := t.tickets
  claimChain := t.chain
  claims := t.requests
  claim := t.claim
  mine := t.mine }

/-- The commission that a payout task has credited by its step. -/
def commission (cfg : Config) : Option (Round × PayoutPc) → Option (Round × PayoutPc) → List UpdateReward
  | some t, some t' => Treasury.commissionCredited cfg t.2 t'.2
  | _, _ => []

/-- The payout task that takes a step. -/
def payoutTask? : Serving.Action → Option ℕ
  | .assigning (.mining (.payout k _)) => some k
  | _ => none

/-- The tasks of `Serving`; what they send goes to `pool_mine_success_system`. -/
def stepServing (su : ServerSetup) (s : Server) : Serving.Action → Option Server
  | .assigning (.mining (.database _)) => none
  | a => (s.serving.step su a).map fun t => { s with
    serving := t
    channel := s.channel ++ t.assigning.mining.messages.drop s.mining.messages.length
    commissions := (payoutTask? a).elim [] (fun k =>
      commission su.mining.config s.mining.payouts[k]? t.assigning.mining.payouts[k]?) ++ s.commissions }

def stepPost (s : Server) (k : ℕ) (input : SignupInput) : Option Server := do
  let t ← s.posts[k]?
  let (db, pc) ← t.2.step t.1 s.db input
  return { s with serving := s.serving.setDb db, posts := s.posts.set k (t.1, pc) }

def stepTreasury (su : ServerSetup) (s : Server) (a : Treasury.Action) : Option Server :=
  (s.treasury.step su.treasury a).map s.setTreasury

/-- `pool_mine_success_system` receives a message, and sees the connections of this moment. -/
def stepReceive (su : ServerSetup) (s : Server) : Option Server :=
  (s.stepTreasury su (.receive s.serving.mem.sockets)).map fun t => { t with channel := s.channel.tail }

def step (su : ServerSetup) (s : Server) : Action → Option Server
  | .serving a => s.stepServing su a
  | .post pubkey => some { s with posts := s.posts ++ [(pubkey, .getMiner)] }
  | .postStep k input => s.stepPost k input
  | .claimRequest r => s.stepTreasury su (.request r)
  | .claimRequestStep i input => s.stepTreasury su (.requestStep i input)
  | .claimStep input => s.stepTreasury su (.claimStep input)
  | .landClaim tx ok => s.stepTreasury su (.land tx ok)
  | .receive => s.stepReceive su
  | .mineCall o => s.stepTreasury su (.mineCall o)

/-- The server when `main` has spawned its tasks. -/
def start (proof : Proof) (db : Database) : Server where
  serving := Serving.start proof db
  posts := []
  queue := ∅
  tickets := 0
  claimChain := ∅
  claims := []
  claim := .idle
  channel := []
  mine := ⟨[], false⟩
  commissions := []

/-! ### What a step is for the tasks that move rewards -/

/-- The step of `Treasury` that a step of the server is. -/
def treasuryAction? (su : ServerSetup) (s : Server) : Action → Option Treasury.Action
  | .serving (.assigning (.mining (.main .go))) =>
    match s.mining.main with
    | .stop r best _ tx true => some (.mined (r.payout su.mining.drillx best tx))
    | _ => none
  | .serving (.assigning (.mining (.payout k input))) => some (.payoutStep k input)
  | .serving (.requestStep k (.signup o id)) =>
    match s.serving.requests[k]? with
    | some (r, .signup) => some (.signup o id r.pubkey)
    | _ => none
  | .postStep k (.signup o id) =>
    match s.posts[k]? with
    | some (pubkey, .signup) => some (.signup o id pubkey)
    | _ => none
  | .claimRequest r => some (.request r)
  | .claimRequestStep i input => some (.requestStep i input)
  | .claimStep input => some (.claimStep input)
  | .landClaim tx ok => some (.land tx ok)
  | .receive => some (.receive s.serving.mem.sockets)
  | .mineCall o => some (.mineCall o)
  | _ => none

end Server

/-- The step of a task that moves no reward: the clock goes on, or a table is written that is not of the ledger. -/
structure Treasury.Idles (t t' : Treasury) : Prop where
  ledger : t.db.SameLedger t'.db
  rest : t' = { t with now := t'.now, db := t'.db }

theorem EpochOp.exec_sameLedger (op : EpochOp) (cfg : RowId) (o : CallOutcome) (m : EpochMemory) :
    m.db.SameLedger (op.exec cfg o m).1.db := by
  cases op with
  | addChallenge c =>
    have hledger := addNewChallenge_sameLedger o ⟨cfg, c⟩ m.db
    simp only [exec]
    split <;> next h => rwa [h] at hledger
  | verifyChallenge c =>
    simp only [exec]
    split <;> exact .refl _
  | _ => exact .refl _

theorem MainStep.sameLedger {dx : Drillx} {cfg : RowId} {rounds : ℕ} {m m' : MainMemory} {i : MainInput} {pc pc' : MainPc}
    {ev : MainEvent} (h : MainStep dx cfg rounds m i pc m' pc' ev) : m.mem.db.SameLedger m'.mem.db := by
  cases h with
  | enterOp | discardOp => exact EpochOp.exec_sameLedger ..
  | _ => exact .refl _

/-- The same payout tasks, messages and ledger. -/
structure Mining.Idles (s s' : Mining) : Prop where
  payouts : s'.payouts = s.payouts
  messages : s'.messages = s.messages
  ledger : s.mem.db.SameLedger s'.mem.db

/-- Apart from a payout task, and the main loop when it spawns one, no mining task has to do with a payout. -/
theorem Mining.Step.idles {su : MiningSetup} {s s' : Mining} {a : Mining.Action} (h : Mining.Step su s a s')
    (hdb : ∀ db, a ≠ .database db) (hpay : ∀ k input, a ≠ .payout k input)
    (hmain : a = .main .go → ∀ r best i tx, s.main ≠ .stop r best i tx true) : s.Idles s' := by
  cases h with
  | @main input m pc ev hstep =>
    have hledger : s.mem.db.SameLedger m.mem.db := hstep.sameLedger
    refine ⟨?_, event_messages .., ?_⟩
    · refine event_payouts ?_
      rcases hstep.spawn_cases with hno | ⟨r, best, i, tx, hpc, -, -, rfl⟩
      · exact hno
      · generalize hpc₀ : s.main = pc₀ at hstep hpc
        subst hpc
        cases hstep
        exact absurd hpc₀ (hmain rfl r best i tx)
    · rw [event_mem]
      exact hledger
  | watcher _ hstep =>
    cases hstep with
    | op => exact ⟨rfl, rfl, EpochOp.exec_sameLedger ..⟩
    | _ => exact ⟨rfl, rfl, .refl _⟩
  | handler _ hstep =>
    refine ⟨rfl, rfl, ?_⟩
    cases hstep <;> exact .refl _
  | payout => exact absurd rfl (hpay _ _)
  | database => exact absurd rfl (hdb _)
  | _ => exact ⟨rfl, rfl, .refl _⟩

private theorem idles_of_counter (s : Mining) (nonce : UInt64) : s.Idles { s with mem.nonce := nonce } :=
  ⟨rfl, rfl, .refl _⟩

theorem Assigning.Step.idles {su : MiningSetup} {s s' : Assigning} {a : Assigning.Action} (h : Assigning.Step su s a s')
    (hdb : ∀ db, a ≠ .mining (.database db)) (hpay : ∀ k input, a ≠ .mining (.payout k input))
    (hmain : a = .mining (.main .go) → ∀ r best i tx, s.mining.main ≠ .stop r best i tx true) :
    s.mining.Idles s'.mining := by
  cases h with
  | mining _ hstep =>
    refine (Mining.step_sound hstep).idles (fun db he => hdb db (by rw [he])) (fun k input he => hpay k input (by rw [he])) ?_
    intro he
    exact hmain (by rw [he])
  | allocate => exact idles_of_counter _ _
  | _ => exact ⟨rfl, rfl, .refl _⟩

/-- A request for a websocket writes to the database by signing its miner up. -/
theorem WsPc.step_signup {verify : Verify} {r : WsRequest} {m m' : WsMemory} {i : WsInput} {pc pc' : WsPc}
    (h : pc.step verify r m i = some (m', pc')) :
    (∃ o id, i = .signup o id ∧ pc = .signup ∧ m'.db = (signupUserTransaction o id r.pubkey m.db).2) ∨
      (∀ o id, i = .signup o id → pc ≠ .signup) ∧ m'.db = m.db := by
  unfold WsPc.step at h
  split at h
  · split at h <;> cases h <;> exact Or.inr ⟨by simp, rfl⟩
  · next o id =>
    refine Or.inl ⟨o, id, rfl, rfl, ?_⟩
    split at h <;> next he => cases h; rw [he]
  · split at h <;> cases h <;> exact Or.inr ⟨by simp, rfl⟩
  · cases h
    exact Or.inr ⟨by simp, rfl⟩
  · split at h <;> cases h <;> exact Or.inr ⟨by simp, rfl⟩
  · cases h
    exact Or.inr ⟨by simp, rfl⟩
  · cases h

theorem PostSignupPc.step_signup {pubkey : Pubkey} {db db' : Database} {i : SignupInput} {pc pc' : PostSignupPc}
    (h : pc.step pubkey db i = some (db', pc')) :
    (∃ o id, i = .signup o id ∧ pc = .signup ∧ db' = (signupUserTransaction o id pubkey db).2) ∨
      (∀ o id, i = .signup o id → pc ≠ .signup) ∧ db' = db := by
  unfold PostSignupPc.step at h
  split at h
  · split at h <;> cases h <;> exact Or.inr ⟨by simp, rfl⟩
  · next o id =>
    refine Or.inl ⟨o, id, rfl, rfl, ?_⟩
    split at h <;> next he => cases h; rw [he]
  · cases h

theorem Serving.stepRequest_eq {su : ServerSetup} {s s' : Serving} {k : ℕ} {input : WsInput}
    (h : Serving.step su s (.requestStep k input) = some s') :
    ∃ r pc m pc', s.requests[k]? = some (r, pc) ∧ pc.step su.verify r ⟨s.mem.db, s.mem.sockets⟩ input = some (m, pc') ∧
      s' = { (s.setDb m.db).setSockets m.sockets with requests := s.requests.set k (r, pc') } := by
  replace h : s.stepRequest su k input = some s' := h
  simp only [stepRequest, Option.bind_eq_bind, Option.bind_eq_some_iff, Option.pure_def, Option.some.injEq] at h
  obtain ⟨⟨r, pc⟩, hk, ⟨m, pc'⟩, hstep, rfl⟩ := h
  exact ⟨r, pc, m, pc', hk, hstep, rfl⟩

/-- The same of the tasks of `Serving`, where a request may also sign its miner up. -/
theorem Serving.step_idles {su : ServerSetup} {s s' : Serving} {a : Serving.Action} (h : Serving.step su s a = some s')
    (hdb : ∀ db, a ≠ .assigning (.mining (.database db))) (hpay : ∀ k input, a ≠ .assigning (.mining (.payout k input)))
    (hmain : a = .assigning (.mining (.main .go)) → ∀ r best i tx, s.assigning.mining.main ≠ .stop r best i tx true)
    (hsignup : ∀ k o id, a = .requestStep k (.signup o id) → ∀ r, s.requests[k]? ≠ some (r, .signup)) :
    s.assigning.mining.Idles s'.assigning.mining := by
  by_cases hreq : ∃ k input, a = .requestStep k input
  · obtain ⟨k, input, rfl⟩ := hreq
    obtain ⟨r, pc, m, pc', hk, hstep, rfl⟩ := stepRequest_eq h
    refine ⟨rfl, rfl, ?_⟩
    rcases WsPc.step_signup hstep with ⟨o, id, rfl, rfl, -⟩ | ⟨-, he⟩
    · exact absurd hk (hsignup k o id rfl r)
    · show s.mem.db.SameLedger m.db
      rw [he]
      exact .refl _
  · cases step_sound h with
    | assigning _ _ ht =>
      refine (Assigning.step_sound ht).idles (fun db he => hdb db (by rw [he])) (fun k input he => hpay k input (by rw [he])) ?_
      intro he
      exact hmain (by rw [he])
    | requestStep => exact absurd ⟨_, _, rfl⟩ hreq
    | solution _ ht => exact (Assigning.step_sound ht).idles (by simp) (by simp) (by simp)
    | _ => exact ⟨rfl, rfl, .refl _⟩

namespace Server

variable {su : ServerSetup} {s s' : Server} {a : Action}

theorem stepServing_eq {a : Serving.Action} (h : step su s (.serving a) = some s') :
    (∀ db, a ≠ .assigning (.mining (.database db))) ∧ ∃ t, s.serving.step su a = some t ∧ s' = { s with
      serving := t
      channel := s.channel ++ t.assigning.mining.messages.drop s.mining.messages.length
      commissions := (payoutTask? a).elim [] (fun k =>
        commission su.mining.config s.mining.payouts[k]? t.assigning.mining.payouts[k]?) ++ s.commissions } := by
  replace h : s.stepServing su a = some s' := h
  unfold stepServing at h
  split at h
  · cases h
  · next hdb =>
    obtain ⟨t, ht, rfl⟩ := Option.map_eq_some_iff.1 h
    exact ⟨hdb, t, ht, rfl⟩

theorem stepPost_eq {k : ℕ} {input : SignupInput} (h : step su s (.postStep k input) = some s') :
    ∃ pubkey pc db pc', s.posts[k]? = some (pubkey, pc) ∧ pc.step pubkey s.db input = some (db, pc') ∧
      s' = { s with serving := s.serving.setDb db, posts := s.posts.set k (pubkey, pc') } := by
  replace h : s.stepPost k input = some s' := h
  simp only [stepPost, Option.bind_eq_bind, Option.bind_eq_some_iff, Option.pure_def, Option.some.injEq] at h
  obtain ⟨⟨pubkey, pc⟩, hk, ⟨db, pc'⟩, hstep, rfl⟩ := h
  exact ⟨pubkey, pc, db, pc', hk, hstep, rfl⟩

/-- The tasks that do nothing but move rewards. -/
def mover : Treasury.Action → Bool
  | .request _ | .requestStep _ _ | .claimStep _ | .land _ _ | .mineCall _ => true
  | _ => false

theorem treasury_setTreasury {b : Treasury.Action} {t : Treasury} (hb : mover b = true)
    (h : Treasury.Step su.treasury s.treasury b t) : (s.setTreasury t).treasury = t := by
  cases h <;> first | rfl | cases hb

private theorem stepTreasury_eq {b : Treasury.Action} (hb : mover b = true) (h : s.stepTreasury su b = some s') :
    Treasury.step su.treasury s.treasury b = some s'.treasury := by
  obtain ⟨t, ht, rfl⟩ := Option.map_eq_some_iff.1 h
  rw [ht, treasury_setTreasury hb (Treasury.step_sound ht)]

private theorem receive_eq (h : step su s .receive = some s') :
    Treasury.step su.treasury s.treasury (.receive s.serving.mem.sockets) = some s'.treasury := by
  obtain ⟨u, hu, rfl⟩ := Option.map_eq_some_iff.1 h
  obtain ⟨t, ht, rfl⟩ := Option.map_eq_some_iff.1 hu
  rw [ht]
  cases Treasury.step_sound ht with
  | @receive socks msg channel t' hch hrecv =>
    have htail : channel = s.channel.tail.map Prod.snd := by
      rw [List.map_tail, show s.channel.map Prod.snd = msg :: channel from hch, List.tail_cons]
    rw [htail]
    rfl

private theorem spawn_eq (h : step su s (.serving (.assigning (.mining (.main .go)))) = some s') {r : MainRound}
    {best : Solution} {i : ℕ} {tx : MineTx} (hmain : s.mining.main = .stop r best i tx true) :
    Treasury.step su.treasury s.treasury (.mined (r.payout su.mining.drillx best tx)) = some s'.treasury := by
  obtain ⟨-, t, ht, rfl⟩ := stepServing_eq h
  obtain ⟨u, hu, rfl⟩ := Option.map_eq_some_iff.1 ht
  obtain ⟨m, hm, rfl⟩ := Option.map_eq_some_iff.1 hu
  replace hm : Mining.stepMain su.mining s.mining .go = some m := hm
  simp only [Mining.stepMain, hmain, MainPc.step, Option.bind_eq_bind, Option.bind_some, Option.pure_def,
    Option.some.injEq] at hm
  subst hm
  simp [Treasury.step, treasury, mining, db, Mining.event, payoutTask?]

private theorem payout_eq {k : ℕ} {input : PayoutInput}
    (h : step su s (.serving (.assigning (.mining (.payout k input)))) = some s') :
    Treasury.step su.treasury s.treasury (.payoutStep k input) = some s'.treasury := by
  obtain ⟨-, t, ht, rfl⟩ := stepServing_eq h
  obtain ⟨u, hu, rfl⟩ := Option.map_eq_some_iff.1 ht
  obtain ⟨m, hm, rfl⟩ := Option.map_eq_some_iff.1 hu
  cases Mining.step_sound hm with
  | @payout k input r pc pc' db msgs hk hpc =>
    have hk : s.mining.payouts[k]? = some (r, pc) := hk
    have hset : (s.mining.payouts.set k (r, pc'))[k]? = some (r, pc') :=
      List.getElem?_set_self (List.getElem?_eq_some_iff.1 hk).1
    have hpay : s.treasury.payouts[k]? = some (r, pc) := hk
    have hcall : pc.step su.treasury.fmt su.treasury.config r s.treasury.db input = some (db, pc', msgs) := hpc
    have hcom : commission su.mining.config s.mining.payouts[k]? (s.mining.payouts.set k (r, pc'))[k]? =
        Treasury.commissionCredited su.mining.config pc pc' := by
      rw [hk, hset]
      rfl
    have hmsgs : (s.mining.messages ++ msgs.map fun msg => (r.sig, msg)).drop s.mining.messages.length =
        msgs.map fun msg => (r.sig, msg) := List.drop_left
    have hchannel : s.channel.map Prod.snd ++ msgs =
        (s.channel ++ (s.mining.messages ++ msgs.map fun msg => (r.sig, msg)).drop s.mining.messages.length).map Prod.snd := by
      rw [hmsgs]
      simp [Function.comp_def]
    simp only [Treasury.step, Treasury.stepPayout, hpay, hcall, Option.bind_eq_bind, Option.bind_some, Option.pure_def,
      Option.some.injEq]
    show Treasury.mk _ _ _ _ _ _ _ _ _ _ _ = Treasury.mk _ _ _ _ _ _ _ _ _ _ _
    congr 1
    exact congrArg (fun l => l ++ s.commissions) hcom.symm

private theorem wsSignup_eq {k : ℕ} {o : CallOutcome} {id : MinerId}
    (h : step su s (.serving (.requestStep k (.signup o id))) = some s') {r : WsRequest}
    (hk : s.serving.requests[k]? = some (r, .signup)) :
    Treasury.step su.treasury s.treasury (.signup o id r.pubkey) = some s'.treasury := by
  obtain ⟨-, t, ht, rfl⟩ := stepServing_eq h
  obtain ⟨r', pc, m, pc', hk', hstep, rfl⟩ := Serving.stepRequest_eq ht
  rw [hk] at hk'
  cases hk'
  rcases WsPc.step_signup hstep with ⟨o', id', he, -, hdb⟩ | ⟨hno, -⟩
  · cases he
    have hdb : m.db = (signupUserTransaction o id r.pubkey s.db).2 := hdb
    simp [Treasury.step, treasury, mining, db, Serving.setDb, Serving.setSockets, payoutTask?, hdb]
  · exact absurd rfl (hno o id rfl)

private theorem postSignup_eq {k : ℕ} {o : CallOutcome} {id : MinerId}
    (h : step su s (.postStep k (.signup o id)) = some s') {pubkey : Pubkey} (hk : s.posts[k]? = some (pubkey, .signup)) :
    Treasury.step su.treasury s.treasury (.signup o id pubkey) = some s'.treasury := by
  obtain ⟨pubkey', pc, db', pc', hk', hstep, rfl⟩ := stepPost_eq h
  rw [hk] at hk'
  cases hk'
  rcases PostSignupPc.step_signup hstep with ⟨o', id', he, -, rfl⟩ | ⟨hno, -⟩
  · cases he
    rfl
  · exact absurd rfl (hno o id rfl)

/-- A step that is one of the tasks that move rewards. -/
theorem treasury_step (h : step su s a = some s') {b : Treasury.Action} (hb : s.treasuryAction? su a = some b) :
    Treasury.step su.treasury s.treasury b = some s'.treasury := by
  unfold treasuryAction? at hb
  split at hb
  · split at hb
    · next hmain =>
      cases hb
      exact spawn_eq h hmain
    · cases hb
  · cases hb
    exact payout_eq h
  · split at hb
    · next hk =>
      cases hb
      exact wsSignup_eq h hk
    · cases hb
  · split at hb
    · next hk =>
      cases hb
      exact postSignup_eq h hk
    · cases hb
  · cases hb
    exact stepTreasury_eq rfl h
  · cases hb
    exact stepTreasury_eq rfl h
  · cases hb
    exact stepTreasury_eq rfl h
  · cases hb
    exact stepTreasury_eq rfl h
  · cases hb
    exact receive_eq h
  · cases hb
    exact stepTreasury_eq rfl h
  · cases hb

private theorem serving_idles {a : Serving.Action} (h : step su s (.serving a) = some s')
    (hidle : s.mining.Idles s'.mining) (ha : payoutTask? a = none) : s.treasury.Idles s'.treasury := by
  obtain ⟨-, t, ht, rfl⟩ := stepServing_eq h
  have hmsgs : t.assigning.mining.messages.drop s.mining.messages.length = [] := by
    rw [show t.assigning.mining.messages = s.mining.messages from hidle.messages, List.drop_length]
  refine ⟨hidle.ledger, ?_⟩
  simp only [treasury, hmsgs, ha, List.append_nil, Option.elim, List.nil_append]
  congr 1
  exact hidle.payouts

/-- Any other step leaves these tasks and the ledger alone. -/
theorem treasury_idles (h : step su s a = some s') (ha : s.treasuryAction? su a = none) :
    s.treasury.Idles s'.treasury := by
  cases a with
  | serving a =>
    have hidle : s.mining.Idles s'.mining := by
      obtain ⟨hdb, t, ht, rfl⟩ := stepServing_eq h
      refine Serving.step_idles ht hdb ?_ ?_ ?_
      · rintro k input rfl
        cases ha
      · rintro rfl r best i tx hmain
        simp [treasuryAction?, mining, hmain] at ha
      · rintro k o id rfl r hk
        simp [treasuryAction?, hk] at ha
    refine serving_idles h hidle ?_
    unfold payoutTask?
    split
    · cases ha
    · rfl
  | post pubkey =>
    cases h
    exact ⟨.refl _, rfl⟩
  | postStep k input =>
    obtain ⟨pubkey, pc, db', pc', hk, hstep, rfl⟩ := stepPost_eq h
    rcases PostSignupPc.step_signup hstep with ⟨o, id, rfl, rfl, -⟩ | ⟨-, rfl⟩
    · simp [treasuryAction?, hk] at ha
    · exact ⟨.refl _, rfl⟩
  | _ => cases ha

/-- The other tasks write to the database of those of `Serving`. -/
theorem serving_cases (h : step su s a = some s') :
    (∃ b, a = .serving b ∧ Serving.step su s.serving b = some s'.serving) ∨
      (∀ b, a ≠ .serving b) ∧ ∃ db, s'.serving = s.serving.setDb db := by
  have mover : ∀ {b : Treasury.Action} {u : Server}, s.stepTreasury su b = some u → ∃ db, u.serving = s.serving.setDb db := by
    intro b u hu
    obtain ⟨t, -, rfl⟩ := Option.map_eq_some_iff.1 hu
    exact ⟨t.db, rfl⟩
  cases a with
  | serving a =>
    obtain ⟨-, t, ht, rfl⟩ := stepServing_eq h
    exact Or.inl ⟨a, rfl, ht⟩
  | post pubkey =>
    cases h
    exact Or.inr ⟨by simp, s.db, rfl⟩
  | postStep k input =>
    obtain ⟨pubkey, pc, db', pc', -, -, rfl⟩ := stepPost_eq h
    exact Or.inr ⟨by simp, db', rfl⟩
  | receive =>
    obtain ⟨u, hu, rfl⟩ := Option.map_eq_some_iff.1 h
    exact Or.inr ⟨by simp, show ∃ db, u.serving = _ from mover hu⟩
  | _ => exact Or.inr ⟨by simp, mover h⟩

theorem serving_step (h : step su s a = some s') :
    s'.serving = s.serving ∨ ∃ b, Serving.step su s.serving b = some s'.serving := by
  rcases serving_cases h with ⟨b, -, hb⟩ | ⟨-, db, he⟩
  · exact Or.inr ⟨b, hb⟩
  · exact Or.inr ⟨.assigning (.mining (.database db)), by rw [he]; rfl⟩

/-- A run of the server is one of `Serving`, so that all that holds of those holds here. -/
theorem serving_run {as : List Action} (h : run (step su) s as = some s') :
    ∃ bs, run (Serving.step su) s.serving bs = some s'.serving :=
  run_simulates Server.serving serving_step h

/-! ### Data for examples -/

def exampleStart : Server := start Assigning.exampleProof (Database.single (filled 7) 0)

/-- A client connects, gets a range and sends a solution. -/
def workOne : List Serving.Action :=
  Serving.login 0 (.v4 0 1) 1 ++ Serving.getRange 0 0 (.v4 0 1) ++ Serving.sendSolution 0 1 ++ Serving.handleSolution 0

/-- A round is mined, and its message sent. -/
def roundOne : List Mining.Action :=
  List.replicate 60 .tick ++ Mining.takeSnapshot ++ Mining.sendTx ++ Mining.seeFinalized ⟨0, 0⟩ ++
    [.payout 0 (.answer Mining.exampleAnswer)] ++ List.replicate 4 (.payout 0 (.call .executed)) ++ [.payout 0 .send]

def mineOne : List Action :=
  workOne.map .serving ++ roundOne.map fun a => .serving (.assigning (.mining a))

/-- The message is received, and its calls are made. -/
def payOne : List Action := [.receive] ++ List.replicate 8 (.mineCall .executed)

end Server

end BitzPool
