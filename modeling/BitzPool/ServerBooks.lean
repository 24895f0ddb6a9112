import BitzPool.Enrolled
import BitzPool.EpochSound
import BitzPool.Reconcile
import BitzPool.Solvency

/-!
# The books of the server

What holds of the tasks that move rewards when anything may be mined and anyone may be connected holds of the whole
server with less to assume: whoever is paid has a balance (`Enrolled`), and the uuids of connections are distinct because
each is drawn afresh.  So accounts reconcile as long as the database refuses no credit (`books_reconcile`), the pool is
solvent (`books_solvent`), and `pool_mine_success_system` panics over no message, unless one of its lookups is not
answered (`mine_task_survives`).
-/

namespace BitzPool

open Keyed Transition

/-! ### Lookups -/

/-- The miner that a call of the task looks up. -/
def MineStmt.lookup? : MineStmt → Option MinerId
  | .getMinerById id | .getMinerRewardsById id => some id
  | _ => none

/-- The miners of a message are looked up. -/
theorem statements_lookup? {msg : MessageInternalMineSuccess} {rows : PayoutRows} {st : MineStmt}
    (h : st ∈ statements msg rows) {id : MinerId} (hid : st.lookup? = some id) :
    ∃ e ∈ msg.submissions.entries, e.2.minerId = id := by
  simp only [statements, List.mem_append, List.mem_flatMap, List.mem_map, List.mem_cons, List.not_mem_nil, or_false] at h
  rcases h with (((⟨e, he, rfl | rfl⟩ | ⟨batch, -, rfl⟩) | ⟨batch, -, rfl⟩) | ⟨batch, -, rfl⟩) | rfl | rfl
  · exact ⟨e, he, Option.some.inj hid⟩
  · exact ⟨e, he, Option.some.inj hid⟩
  all_goals cases hid

/-- A lookup that is executed finds a miner who has both rows; and no other call panics. -/
theorem MineStmt.exec_ne_panic {o : CallOutcome} {db : Database} {st : MineStmt} (hs : db.InStep)
    (h : ∀ id, st.lookup? = some id → o = .executed ∧ db.rewards.Has id) : (st.exec o db).1 ≠ .panic := by
  have unwrapped : ∀ {β : Type} {res : Except AppDatabaseError β} {b : β}, res = .ok b → (unwrapping res db).1 ≠ .panic := by
    rintro β res b rfl
    simp [unwrapping]
  have retried : ∀ {β : Type} (res : Except AppDatabaseError β × Database), (retrying res).1 ≠ .panic := by
    rintro β ⟨e | b, db'⟩ <;> simp [retrying]
  cases st with
  | getMinerById id =>
    obtain ⟨rfl, hhas⟩ := h id rfl
    obtain ⟨r, hr⟩ := Table.has_iff.1 hhas
    obtain ⟨hmem, rfl⟩ := Table.find?_eq_some.1 hr
    obtain ⟨m, hm, hid⟩ := hs.miner r hmem
    have hsome : (db.miners.rows.find? fun m => m.id = r.minerId).isSome := List.find?_isSome.2 ⟨m, hm, by simpa using hid⟩
    obtain ⟨m', hm'⟩ := Option.isSome_iff_exists.1 hsome
    exact unwrapped (query_executed hm')
  | getMinerRewardsById id =>
    obtain ⟨rfl, hhas⟩ := h id rfl
    obtain ⟨r, hr⟩ := Table.has_iff.1 hhas
    exact unwrapped (query_executed hr)
  | getSubmissionIdWithNonce =>
    rw [exec]
    split <;> simp
  | updateChallengeRewards => simp [exec]
  | _ => exact retried _

/-- No call adds a lookup. -/
theorem MineStmt.exec_lookup? {o : CallOutcome} {db : Database} {st : MineStmt} {more : List MineStmt}
    (h : (st.exec o db).1 = .next more) : ∀ st' ∈ more, st'.lookup? = none := by
  have none : more = [] → ∀ st' ∈ more, st'.lookup? = none := by
    rintro rfl st' ⟨⟩
  have unwrapped : ∀ {β : Type} {res : Except AppDatabaseError β}, (unwrapping res db).1 = .next more → more = [] := by
    rintro β (e | b) h <;> cases h
    rfl
  have retried : ∀ {β : Type} {res : Except AppDatabaseError β × Database}, (retrying res).1 = .next more → more = [] := by
    rintro β ⟨e | b, db'⟩ h <;> cases h
    rfl
  cases st with
  | getMinerById | getMinerRewardsById => exact none (unwrapped h)
  | getSubmissionIdWithNonce =>
    rw [exec] at h
    split at h <;> cases h
    · intro st' hst'
      rw [List.mem_singleton.1 hst']
      rfl
    · exact none rfl
  | updateChallengeRewards =>
    cases h
    exact none rfl
  | _ => exact none (retried h)

theorem MineTask.call_alive {o : CallOutcome} {db db' : Database} {t t' : MineTask} (h : t.call o db = some (db', t'))
    (hs : db.InStep) (hhas : ∀ st ∈ t.todo, ∀ id, st.lookup? = some id → db.rewards.Has id)
    (ho : ∀ st ∈ t.todo.head?, st.lookup?.isSome → o = .executed) :
    t'.dead = false ∧ ∀ st ∈ t'.todo, st.lookup?.isSome → st ∈ t.todo := by
  unfold call at h
  split at h
  · next st todo =>
    have hnopanic : (st.exec o db).1 ≠ .panic := by
      refine MineStmt.exec_ne_panic hs fun id hid => ⟨ho st rfl (by rw [hid]; rfl), ?_⟩
      exact hhas st List.mem_cons_self id hid
    split at h
    · next more db₁ he =>
      cases h
      have hnone := MineStmt.exec_lookup? (congrArg Prod.fst he)
      refine ⟨rfl, fun st' hst' hsome => ?_⟩
      rcases List.mem_append.1 hst' with hst' | hst'
      · rw [hnone st' hst'] at hsome
        cases hsome
      · exact List.mem_cons_of_mem _ hst'
    · cases h
      exact ⟨rfl, fun st' hst' _ => hst'⟩
    · next he => exact absurd (congrArg Prod.fst he) hnopanic
  · cases h

/-! ### Steps of the other tasks -/

namespace Treasury

variable {su : Setup} {s t : Treasury}

theorem Idles.exists (h : s.Idles t) : ∃ now db, s.db.SameLedger db ∧ t = { s with now := now, db := db } :=
  ⟨t.now, t.db, h.ledger, h.rest⟩

theorem Known.idles (hs : s.Known) (h : s.Idles t) : t.Known := by
  obtain ⟨now, db, hledger, rfl⟩ := h.exists
  have hext : s.db.Extends db := hledger.extends
  refine ⟨fun hq => (hs.queue hq).extends hext, fun hpc hk => (hs.requests hpc hk).extends hext,
    fun hi => (hs.claim hi).extends hext, fun hk => ?_⟩
  obtain ⟨m, hm, hid⟩ := hs.miner hk
  exact ⟨m, hext.miner hm, hid⟩

theorem InBooks.idles (hs : s.InBooks su) (h : s.Idles t) : t.InBooks su := by
  have hknown : t.Known := hs.known.idles h
  obtain ⟨now, db, hledger, rfl⟩ := h.exists
  have keep : ∀ {id}, s.db.rewards.Has id → db.rewards.Has id := hledger.extends.has
  refine ⟨hknown, keep hs.commissions, fun p hp e he => keep (hs.payouts p hp e he),
    fun msg hmsg e he => keep (hs.channel msg hmsg e he), fun u hu => keep (hs.credits u hu), hs.first, hs.ahead,
    fun id => ?_⟩
  have hold := hs.reconciled id
  simp only [Reconciled, Database.balance, Database.claimed, Database.earned] at hold ⊢
  rw [hledger.rewards, hledger.claims, hledger.earnings]
  exact hold

theorem Sound.idles (hs : s.Sound) (h : s.Idles t) : t.Sound := by
  have hknown : t.Known := hs.known.idles h
  obtain ⟨now, db, hledger, rfl⟩ := h.exists
  refine ⟨hknown, hs.payouts, hs.channel, fun halive => ?_⟩
  obtain ⟨p, hp, hle⟩ := hs.solvent halive
  refine ⟨p, hledger.pool.trans hp, ?_⟩
  have htotal : db.totalBalance = s.db.totalBalance := by
    rw [Database.totalBalance, Database.totalBalance, hledger.rewards]
  simp only [liabilities, income] at hle ⊢
  rw [htotal]
  exact hle

/-- When nothing is in progress, nothing is in flight. -/
theorem Solvent.quiet (hs : s.Solvent) (hquiet : s.Quiet) :
    ∃ p, s.db.pool = some p ∧ s.db.totalBalance + p.claimedRewards.toNat ≤ p.totalRewards.toNat := by
  obtain ⟨p, hp, hle⟩ := hs
  refine ⟨p, hp, ?_⟩
  have hpayouts : (s.payouts.map fun p => p.2.commission).sum = 0 := by
    refine List.sum_eq_zero fun x hx => ?_
    obtain ⟨q, hq, rfl⟩ := List.mem_map.1 hx
    rcases hquiet.payouts q hq with hq | hq <;> rw [hq] <;> rfl
  have hincome : s.income = 0 := by
    rw [income, hpayouts, hquiet.channel, hquiet.mine]
    rfl
  have hliabilities : s.liabilities = s.db.totalBalance := by
    rw [liabilities, hquiet.claim, hquiet.mine]
    rfl
  rw [hincome, hliabilities] at hle
  exact hle

end Treasury

namespace Server

variable {su : ServerSetup} {s s' : Server} {a : Action} {w : Serving.Lives}

theorem start_fresh (proof : Proof) (db : Database) : (start proof db).treasury.Fresh :=
  ⟨rfl, rfl, rfl, rfl, rfl, rfl, rfl⟩

/-! ### Accounts -/

/-- The database refuses no statement that credits a batch. -/
def CreditsExecuted (su : ServerSetup) (s : Server) (a : Action) : Prop :=
  ∀ b ∈ s.treasuryAction? su a, ∀ c ∈ s.treasury.creditCall su.treasury b, ¬ SqlFails c.1 c.2 s.db

instance (su : ServerSetup) (s : Server) (a : Action) : Decidable (s.CreditsExecuted su a) :=
  inferInstanceAs (Decidable (∀ b ∈ s.treasuryAction? su a, ∀ c ∈ s.treasury.creditCall su.treasury b,
    ¬ SqlFails c.1 c.2 s.db))

/-- Nobody has to be assumed to have a balance. -/
theorem inBooks_step (he : s.Enrolled) (hs : s.treasury.InBooks su.treasury) (hC : s.CreditsExecuted su a)
    (h : step su s a = some s') : s'.treasury.InBooks su.treasury := by
  rcases hb : s.treasuryAction? su a with _ | b
  · exact hs.idles (treasury_idles h hb)
  · have hmined : ∀ e ∈ Treasury.minedEntries b, s.db.rewards.Has e.2.minerId := by
      intro e hmem
      cases b with
      | mined r => exact he.mined hb e hmem
      | _ => cases hmem
    exact hs.step ⟨hC b hb, hmined⟩ (Treasury.step_sound (treasury_step h hb))

/-- In every run of the server from an empty ledger, in which the database refuses no credit: the balance of every miner,
with its claims, a debit without a claims row, and the earnings that are not credited yet, equals its earnings and
commissions; when no payout and no claim is in progress, this is an equation of the tables.  At the start miners and
balances are in step and the receiver of the commissions has its row, as `Startup.spawns_validated` proves of `main`. -/
theorem books_reconcile (su : ServerSetup) (proof : Proof) {db : Database} {s : Server} {as : List Action}
    (hdb : db.InStep) (hempty : Treasury.EmptyLedger db) (hcom : db.rewards.Has su.mining.config.commissionsMinerId)
    (hC : Along (step su) (CreditsExecuted su) (start proof db) as) (h : run (step su) (start proof db) as = some s) :
    (∀ id, s.treasury.Reconciled id) ∧ (s.treasury.Quiet → ∀ id,
      s.db.balance id + s.db.claimed id = s.db.earned id + batchSum s.commissions id) := by
  have h0 : (start proof db).treasury.InBooks su.treasury := (start_fresh proof db).inBooks hempty rfl hcom
  have hs : s.Enrolled ∧ s.treasury.InBooks su.treasury :=
    run_invariant (I := fun s : Server => s.Enrolled ∧ s.treasury.InBooks su.treasury)
      (fun hs hC hstep => ⟨hs.1.step hstep, inBooks_step hs.1 hs.2 hC hstep⟩) ⟨start_enrolled proof hdb, h0⟩ hC h
  refine ⟨hs.2.reconciled, fun hquiet id => ?_⟩
  have hrec := hs.2.reconciled id
  rw [Treasury.Reconciled, hquiet.claim, hquiet.mine] at hrec
  exact hrec

theorem single_inStep (pubkey : Pubkey) (balance : UInt64) : (Database.single pubkey balance).InStep := by
  refine ⟨fun m hm => ?_, fun r hr => ?_⟩
  · rw [List.mem_singleton.1 hm]
    exact List.mem_singleton_self _
  · rw [List.mem_singleton.1 hr]
    exact ⟨_, List.mem_cons_self, rfl⟩

theorem exampleStart_empty : Treasury.EmptyLedger (Database.single (filled 7) 0) :=
  ⟨⟨_, rfl, rfl, rfl⟩, by decide, rfl, rfl⟩

theorem books_reconcile_example :
    ∃ s, run (step Serving.exampleServerSetup) exampleStart (mineOne ++ payOne) = some s ∧
      s.db.rewards.rows = [⟨1, 1000⟩] ∧ ∀ id, s.treasury.Reconciled id := by
  obtain ⟨s, h, hrows⟩ : ∃ s, run (step Serving.exampleServerSetup) exampleStart (mineOne ++ payOne) = some s ∧
      s.db.rewards.rows = [⟨1, 1000⟩] := exists_of_run (by decide +kernel)
  exact ⟨s, h, hrows, (books_reconcile Serving.exampleServerSetup _ (single_inStep _ _) exampleStart_empty (by decide)
    (by decide +kernel) h).1⟩

/-! ### Solvency -/

/-- What is noted of the connections. -/
def watchLives (s : Server) (a : Action) (w : Serving.Lives) : Serving.Lives :=
  match a with
  | .serving a => s.serving.watchLives a w
  | _ => w

/-- `Uuid::new_v4` draws an identifier that no connection has had. -/
def FreshUuids (x : Server × Serving.Lives) : Action → Prop
  | .serving a => Serving.FreshUuids (x.1.serving, x.2) a
  | _ => True

/-- The round whose payout an action spawns. -/
def mined? (su : ServerSetup) (s : Server) (a : Action) : Option Round :=
  match s.treasuryAction? su a with
  | some (.mined r) => some r
  | _ => none

/-- The hashpowers of a snapshot that is to be paid add up to less than `2 ^ 64`. -/
def SmallSnapshots (su : ServerSetup) (s : Server) (a : Action) : Prop :=
  ∀ r ∈ s.mined? su a, realHashpowerSum r.submissions < 2 ^ 64

instance (x : Server × Serving.Lives) (a : Action) : Decidable (FreshUuids x a) :=
  match a with
  | .serving a => inferInstanceAs (Decidable (Serving.FreshUuids (x.1.serving, x.2) a))
  | .post _ | .postStep _ _ | .claimRequest _ | .claimRequestStep _ _ | .claimStep _ | .landClaim _ _ | .receive
  | .mineCall _ => isTrue trivial

instance (su : ServerSetup) (s : Server) (a : Action) : Decidable (s.SmallSnapshots su a) :=
  inferInstanceAs (Decidable (∀ r ∈ s.mined? su a, realHashpowerSum r.submissions < 2 ^ 64))

theorem known_step (hs : Serving.Known (s.serving, w)) (hfresh : FreshUuids (s, w) a) (h : step su s a = some s') :
    Serving.Known (s'.serving, s.watchLives a w) := by
  rcases serving_cases h with ⟨b, rfl, hb⟩ | ⟨hother, db, he⟩
  · exact hs.step hfresh (Serving.step_sound hb)
  · have hw : s.watchLives a w = w := by
      cases a with
      | serving b => exact absurd rfl (hother b)
      | _ => rfl
    rw [hw, he]
    exact ⟨hs.unique, hs.requests, hs.sockets⟩

/-- Connections have distinct uuids, since an identifier belongs to one connection. -/
theorem uuidsUnique_of_known {t : Serving} (hs : Serving.Known (t, w)) : UuidsUnique t.mem.sockets := by
  have hnodup : t.mem.sockets.entries.Nodup := t.mem.sockets.nodupKeys.nodup
  refine List.Nodup.map_on (fun e he e' he' hu => ?_) hnodup
  have hauth : (e.1, e.2) ∈ w.authenticated := hs.sockets (AList.mem_lookup_iff.2 he)
  have hauth' : (e'.1, e'.2) ∈ w.authenticated := hs.sockets (AList.mem_lookup_iff.2 he')
  have hsame := hs.unique _ hauth _ hauth' hu
  exact Sigma.ext (Prod.mk.inj hsame).1 (heq_of_eq (Prod.mk.inj hsame).2)

theorem treasuryAction?_receive {socks : Sockets} (h : s.treasuryAction? su a = some (.receive socks)) :
    a = .receive ∧ socks = s.serving.mem.sockets := by
  unfold treasuryAction? at h
  split at h <;> first | (cases h; exact ⟨rfl, rfl⟩) | cases h | (split at h <;> cases h)

theorem sound_step (hs : s.treasury.Sound) (hknown : Serving.Known (s.serving, w)) (hsmall : s.SmallSnapshots su a)
    (h : step su s a = some s') : s'.treasury.Sound := by
  rcases hb : s.treasuryAction? su a with _ | b
  · exact hs.idles (treasury_idles h hb)
  · have hregular : s.treasury.Regular b := by
      cases b with
      | mined r => exact hsmall r (by simp [mined?, hb])
      | receive socks =>
        rw [(treasuryAction?_receive hb).2]
        exact uuidsUnique_of_known hknown
      | _ => trivial
    exact hs.step hregular (Treasury.step_sound (treasury_step h hb))

/-- The invariant of solvency, with the lives of the connections. -/
structure Covered (x : Server × Serving.Lives) : Prop where
  known : Serving.Known (x.1.serving, x.2)
  sound : x.1.treasury.Sound

/-- In every run of the server from an empty ledger, in which identifiers are fresh and the hashpowers of a snapshot that
is paid add up to less than `2 ^ 64`: unless `pool_mine_success_system` has panicked, the balances, the claims and the
credits to come are covered by the pool's rewards and those to come; and when no payout and no claim is in progress, the
balances and the claims of all miners add up to at most the rewards. -/
theorem books_solvent (su : ServerSetup) (proof : Proof) {db : Database} {x : Server × Serving.Lives} {as : List Action}
    (hempty : Treasury.EmptyLedger db)
    (hfresh : Along (watched (step su) watchLives) FreshUuids (start proof db, ⟨[], [], [], []⟩) as)
    (hsmall : Along (step su) (SmallSnapshots su) (start proof db) as)
    (h : run (watched (step su) watchLives) (start proof db, ⟨[], [], [], []⟩) as = some x) :
    (x.1.mine.dead = false → x.1.treasury.Solvent) ∧ (x.1.treasury.Quiet →
      ∃ p, x.1.db.pool = some p ∧ x.1.db.totalBalance + p.claimedRewards.toNat ≤ p.totalRewards.toNat) := by
  have h0 : Covered (start proof db, ⟨[], [], [], []⟩) :=
    ⟨Serving.start_known proof db, (start_fresh proof db).sound hempty⟩
  have hx : Covered x := by
    refine run_invariant (watched_invariant fun hx hC hstep => ?_) h0 (hfresh.and hsmall.watched) h
    exact ⟨known_step hx.known hC.1 hstep, sound_step hx.sound hx.known hC.2 hstep⟩
  refine ⟨hx.sound.solvent, fun hquiet => Treasury.Solvent.quiet (hx.sound.solvent ?_) hquiet⟩
  have hmine : x.1.mine = ⟨[], false⟩ := hquiet.mine
  show x.1.mine.dead = false
  rw [hmine]

theorem books_solvent_example :
    ∃ x, run (watched (step Serving.exampleServerSetup) watchLives) (exampleStart, ⟨[], [], [], []⟩) (mineOne ++ payOne) =
        some x ∧ x.1.channel = [] ∧
      ∃ p, x.1.db.pool = some p ∧ x.1.db.totalBalance + p.claimedRewards.toNat ≤ p.totalRewards.toNat := by
  obtain ⟨x, h, hchannel, hmine, hclaim, hpayouts⟩ :
      ∃ x, run (watched (step Serving.exampleServerSetup) watchLives) (exampleStart, ⟨[], [], [], []⟩)
        (mineOne ++ payOne) = some x ∧ x.1.channel = [] ∧ x.1.mine = ⟨[], false⟩ ∧ x.1.claim = .idle ∧
        ∀ p ∈ x.1.mining.payouts, p.2 = .done ∨ p.2 = .dead := exists_of_run (by decide +kernel)
  have hquiet : x.1.treasury.Quiet := ⟨hpayouts, by rw [treasury, hchannel]; rfl, hmine, hclaim⟩
  exact ⟨x, h, hchannel, (books_solvent Serving.exampleServerSetup _ exampleStart_empty (by decide +kernel)
    (by decide +kernel) h).2 hquiet⟩

/-! ### The task that pays -/

/-- Lookups of the task are executed. -/
def LookupsExecuted (s : Server) : Action → Prop
  | .mineCall o => ∀ st ∈ s.mine.todo.head?, st.lookup?.isSome → o = .executed
  | _ => True

/-- A solution for which a handler starts has a difficulty below 70. -/
def SmallSolutions (su : ServerSetup) (s : Server) (a : Action) : Prop :=
  ∀ msg ∈ s.delivered? a, su.mining.drillx.difficulty msg.solution < 70

instance (s : Server) (a : Action) : Decidable (s.LookupsExecuted a) :=
  match a with
  | .mineCall o => inferInstanceAs (Decidable (∀ st ∈ s.mine.todo.head?, st.lookup?.isSome → o = .executed))
  | .serving _ | .post _ | .postStep _ _ | .claimRequest _ | .claimRequestStep _ _ | .claimStep _ | .landClaim _ _
  | .receive => isTrue trivial

instance (su : ServerSetup) (s : Server) (a : Action) : Decidable (s.SmallSolutions su a) :=
  inferInstanceAs (Decidable (∀ msg ∈ s.delivered? a, su.mining.drillx.difficulty msg.solution < 70))

/-- Messages are put at the end of the channel and received from its front. -/
theorem channel_cases (h : step su s a = some s') :
    (a ≠ .receive ∧ ∃ sent, s'.channel = s.channel ++ sent ∧ s'.mining.messages = s.mining.messages ++ sent) ∨
      a = .receive ∧ ∃ x, s.channel = x :: s'.channel ∧ s'.mining.messages = s.mining.messages ∧ s'.db = s.db ∧
        s.mine.receive su.mining.config.poolId x.2 s.serving.mem.sockets = some s'.mine := by
  have mover : ∀ {b : Treasury.Action} {u : Server}, s.stepTreasury su b = some u →
      ∃ sent, u.channel = s.channel ++ sent ∧ u.mining.messages = s.mining.messages ++ sent := by
    intro b u hu
    obtain ⟨t, -, rfl⟩ := Option.map_eq_some_iff.1 hu
    exact ⟨[], (List.append_nil _).symm, (List.append_nil _).symm⟩
  cases a with
  | serving a =>
    have hprefix : s.mining.messages <+: s'.mining.messages := by
      rcases mining_step h with he | ⟨b, hb⟩
      · exact Update.prefix_of_eq (congrArg Mining.messages he).symm
      · exact (Mining.step_sound hb).messages
    obtain ⟨-, t, -, rfl⟩ := stepServing_eq h
    obtain ⟨sent, hsent⟩ := hprefix
    replace hsent : s.mining.messages ++ sent = t.assigning.mining.messages := hsent
    refine Or.inl ⟨by simp, sent, ?_, hsent.symm⟩
    show s.channel ++ t.assigning.mining.messages.drop s.mining.messages.length = s.channel ++ sent
    rw [← hsent, List.drop_left]
  | post pubkey =>
    cases h
    exact Or.inl ⟨by simp, [], (List.append_nil _).symm, (List.append_nil _).symm⟩
  | postStep k input =>
    obtain ⟨pubkey, pc, db', pc', -, -, rfl⟩ := stepPost_eq h
    exact Or.inl ⟨by simp, [], (List.append_nil _).symm, (List.append_nil _).symm⟩
  | receive =>
    obtain ⟨u, hu, rfl⟩ := Option.map_eq_some_iff.1 h
    obtain ⟨t, ht, rfl⟩ := Option.map_eq_some_iff.1 hu
    cases Treasury.step_sound ht with
    | @receive _ msg channel t hch hrecv =>
      obtain ⟨x, channel', hx, rfl, -⟩ := List.map_eq_cons_iff.1 hch
      exact Or.inr ⟨rfl, x, by rw [hx]; rfl, rfl, rfl, hrecv⟩
  | _ => exact Or.inl ⟨by simp, mover h⟩

/-- What was sent and is not received yet are the last of the messages. -/
theorem channel_step (h : step su s a = some s') (hs : s.channel <:+ s.mining.messages) :
    s'.channel <:+ s'.mining.messages := by
  rcases channel_cases h with ⟨-, sent, hchannel, hmessages⟩ | ⟨-, x, hchannel, hmessages, -⟩
  · rw [hchannel, hmessages]
    obtain ⟨received, hreceived⟩ := hs
    exact ⟨received, by rw [← List.append_assoc, hreceived]⟩
  · rw [hmessages]
    rw [hchannel] at hs
    exact (List.suffix_cons x _).trans hs

/-- The task receives a message or makes a call, or is left alone. -/
theorem mine_cases (h : step su s a = some s') :
    s'.mine = s.mine ∨
      (∃ x channel, s.channel = x :: channel ∧
        s.mine.receive su.mining.config.poolId x.2 s.serving.mem.sockets = some s'.mine) ∨
      ∃ o db', a = .mineCall o ∧ s.mine.call o s.db = some (db', s'.mine) := by
  have mover : ∀ {b : Treasury.Action} {u : Server}, s.stepTreasury su b = some u → mover b = true →
      (∀ o, b ≠ .mineCall o) → u.mine = s.mine := by
    intro b u hu hb hcall
    obtain ⟨t, ht, rfl⟩ := Option.map_eq_some_iff.1 hu
    cases Treasury.step_sound ht with
    | mineCall => exact absurd rfl (hcall _)
    | receive => cases hb
    | _ => rfl
  cases a with
  | serving a =>
    obtain ⟨-, t, -, rfl⟩ := stepServing_eq h
    exact Or.inl rfl
  | post pubkey =>
    cases h
    exact Or.inl rfl
  | postStep k input =>
    obtain ⟨pubkey, pc, db', pc', -, -, rfl⟩ := stepPost_eq h
    exact Or.inl rfl
  | receive =>
    rcases channel_cases h with ⟨hno, -⟩ | ⟨-, x, hchannel, -, -, hrecv⟩
    · exact absurd rfl hno
    · exact Or.inr (Or.inl ⟨x, s'.channel, hchannel, hrecv⟩)
  | mineCall o =>
    obtain ⟨t, ht, rfl⟩ := Option.map_eq_some_iff.1 h
    obtain ⟨⟨db', mine⟩, hcall, rfl⟩ := Option.map_eq_some_iff.1 ht
    exact Or.inr (Or.inr ⟨o, db', rfl, hcall⟩)
  | _ => exact Or.inl (mover h rfl (by simp))

/-- A payout task is spawned for a round. -/
theorem paid_step (h : step su s a = some s') :
    s'.mining.paid = s.mining.paid ∨ ∃ r ∈ s.mined? su a, s'.mining.paid = s.mining.paid ++ [r] := by
  have hpaid : ∀ u : Server, u.mining.paid = u.treasury.payouts.map Prod.fst := fun u => rfl
  rcases hb : s.treasuryAction? su a with _ | b
  · refine Or.inl ?_
    rw [hpaid, (treasury_idles h hb).rest, hpaid]
  · rw [hpaid, hpaid]
    have hstep := Treasury.step_sound (treasury_step h hb)
    generalize s'.treasury = t at hstep
    cases hstep with
    | @mined r => exact Or.inr ⟨r, by simp [mined?, hb], by simp⟩
    | payout hk => exact Or.inl (Update.map_set_of_eq hk rfl)
    | _ => exact Or.inl rfl

/-- The invariant: whatever the task gets to pay can be divided and paid. -/
structure Alive (su : ServerSetup) (s : Server) : Prop where
  enrolled : s.Enrolled
  hashes : s.mining.HashesSound su.mining.drillx
  paid : ∀ r ∈ s.mining.paid, realHashpowerSum r.submissions < 2 ^ 64
  channel : s.channel <:+ s.mining.messages
  lookups : ∀ st ∈ s.mine.todo, ∀ id, st.lookup? = some id → s.db.rewards.Has id
  alive : s.mine.dead = false

/-- A message is of a snapshot: it has entries of miners with balances, and nothing to divide by is zero. -/
theorem Alive.message (hs : s.Alive su) {x : ℕ × MessageInternalMineSuccess} (hx : x ∈ s.mining.messages) :
    (∀ e ∈ x.2.submissions.entries, s.db.rewards.Has e.2.minerId) ∧
      ∀ poolId socks, (payoutRows poolId x.2 socks).isSome := by
  obtain ⟨r, hr, -, full, id, hmsg⟩ := hs.enrolled.billed.sent x hx
  have hsubs : x.2.submissions = r.submissions := by rw [hmsg]; rfl
  have hsum : realHashpowerSum x.2.submissions < 2 ^ 64 := by
    rw [hsubs]
    exact hs.paid r hr
  obtain ⟨hsound, htotals⟩ := hs.hashes.messages x hx
  refine ⟨?_, fun poolId socks => payoutRows_isSome fun e he => ?_⟩
  · obtain ⟨bills, hbills, -, hof⟩ := hs.enrolled.billed.messages
    rw [← hbills] at hx
    obtain ⟨b, hb, rfl⟩ := List.mem_map.1 hx
    exact hs.enrolled.miners.entries.rounds _ (List.mem_of_getElem? (hof b hb).2.2)
  · obtain ⟨h1, h2⟩ := totals_ne_zero htotals hsound.realHashpower_pos hsum he
    rw [Option.isSome_iff_ne_none, Ne, earnedRewards_eq_none, not_or]
    exact ⟨h1, h2⟩

theorem Alive.mine (hs : s.Alive su) (ho : s.LookupsExecuted a) (h : step su s a = some s') :
    s'.mine.dead = false ∧ ∀ st ∈ s'.mine.todo, ∀ id, st.lookup? = some id → s.db.rewards.Has id := by
  rcases mine_cases h with he | ⟨x, channel, hch, hrecv⟩ | ⟨o, db', rfl, hcall⟩
  · rw [he]
    exact ⟨hs.alive, hs.lookups⟩
  · obtain ⟨hhas, hrows⟩ := hs.message (hs.channel.subset (by rw [hch]; exact List.mem_cons_self))
    obtain ⟨rows, hrows⟩ := Option.isSome_iff_exists.1 (hrows su.mining.config.poolId s.serving.mem.sockets)
    have hmine : s'.mine = ⟨statements x.2 rows, false⟩ := by
      unfold MineTask.receive at hrecv
      split at hrecv
      · rw [hrows] at hrecv
        exact (Option.some.inj hrecv).symm
      · cases hrecv
    rw [hmine]
    refine ⟨rfl, fun st hst id hid => ?_⟩
    obtain ⟨e, he, rfl⟩ := statements_lookup? hst hid
    exact hhas e he
  · obtain ⟨halive, htodo⟩ := MineTask.call_alive hcall hs.enrolled.inStep hs.lookups ho
    exact ⟨halive, fun st hst id hid => hs.lookups st (htodo st hst (by rw [hid]; rfl)) id hid⟩

theorem Alive.step (hs : s.Alive su) (hsmall : s.SmallSnapshots su a) (hsol : s.SmallSolutions su a)
    (ho : s.LookupsExecuted a) (h : step su s a = some s') : s'.Alive su := by
  have keep : ∀ {id}, s.db.rewards.Has id → s'.db.rewards.Has id := (step_extends h).has
  obtain ⟨halive, hlookups⟩ := hs.mine ho h
  refine ⟨hs.enrolled.step h, ?_, fun r hr => ?_, channel_step h hs.channel,
    fun st hst id hid => keep (hlookups st hst id hid), halive⟩
  · rcases mining_cases h with he | ⟨b, hb, hmessage, -⟩
    · rw [he]
      exact hs.hashes
    · refine hs.hashes.step ?_ (Mining.step_sound hb)
      cases b with
      | message msg => exact hsol msg (hmessage msg rfl)
      | _ => trivial
  · rcases paid_step h with he | ⟨r', hr', he⟩
    · rw [he] at hr
      exact hs.paid r hr
    · rw [he] at hr
      rcases List.mem_append.1 hr with hr | hr
      · exact hs.paid r hr
      · rw [List.mem_singleton.1 hr]
        exact hsmall r' hr'

/-- In every run of the server in which solutions have difficulties below 70, the hashpowers of a snapshot that is paid add
up to less than `2 ^ 64`, and lookups are executed: `pool_mine_success_system` does not panic; whatever it receives next,
it divides by zero nowhere; and the miners that it looks up have both of their rows.  At the start miners and balances are
in step, as `Startup.spawns_validated` proves of `main`. -/
theorem mine_task_survives (su : ServerSetup) (proof : Proof) {db : Database} {s : Server} {as : List Action}
    (hdb : db.InStep) (hsmall : Along (step su) (SmallSnapshots su) (start proof db) as)
    (hsol : Along (step su) (SmallSolutions su) (start proof db) as)
    (ho : Along (step su) LookupsExecuted (start proof db) as) (h : run (step su) (start proof db) as = some s) :
    s.mine.dead = false ∧ (∀ x ∈ s.channel, ∀ poolId socks, (payoutRows poolId x.2 socks).isSome) ∧
      ∀ st ∈ s.mine.todo, ∀ id, st.lookup? = some id → s.db.addressed id = 1 ∧ ∃ m ∈ s.db.miners.rows, m.id = id := by
  have h0 : (start proof db).Alive su :=
    ⟨start_enrolled proof hdb, Mining.start_hashesSound _ proof db, by simp [start, mining, Serving.start, Assigning.start,
      Mining.start, Mining.paid], List.nil_suffix, by simp [start], rfl⟩
  have hs : s.Alive su :=
    run_invariant (I := Alive su) (fun hs hC hstep => hs.step hC.1.1 hC.1.2 hC.2 hstep) h0 ((hsmall.and hsol).and ho) h
  refine ⟨hs.alive, fun x hx => (hs.message (hs.channel.subset hx)).2, fun st hst id hid => ?_⟩
  obtain ⟨r, hr⟩ := Table.has_iff.1 (hs.lookups st hst id hid)
  obtain ⟨hmem, rfl⟩ := Table.find?_eq_some.1 hr
  obtain ⟨m, hm, hmid⟩ := hs.enrolled.inStep.miner r hmem
  refine ⟨?_, m, hm, hmid⟩
  rw [← hmid]
  exact hs.enrolled.inStep.addressed hm

theorem mine_task_survives_example :
    ∃ s, run (step Serving.exampleServerSetup) exampleStart (mineOne ++ [.receive]) = some s ∧ s.mine.todo.length = 7 ∧
      s.mine.dead = false ∧
      ∀ st ∈ s.mine.todo, ∀ id, st.lookup? = some id → s.db.addressed id = 1 ∧ ∃ m ∈ s.db.miners.rows, m.id = id := by
  obtain ⟨s, h, hlen⟩ : ∃ s, run (step Serving.exampleServerSetup) exampleStart (mineOne ++ [.receive]) = some s ∧
      s.mine.todo.length = 7 := exists_of_run (by decide +kernel)
  obtain ⟨halive, -, hlookups⟩ := mine_task_survives Serving.exampleServerSetup _ (single_inStep _ _) (by decide +kernel)
    (by decide +kernel) (by decide +kernel) h
  exact ⟨s, h, hlen, halive, hlookups⟩

end Server

end BitzPool
