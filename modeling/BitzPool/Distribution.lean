import BitzPool.Lib.Run
import BitzPool.Lib.Update
import BitzPool.Rounds

/-!
# Every mined reward is distributed

When the main loop sees its transaction finalised it spawns the payout task of the round, and that task sends the
message for `pool_mine_success_system`.  The reward of a transaction that the main loop gave up is lost, and so is that
of a transaction whose answer from the RPC node has no metadata, or no readable return data: the task then panics or
ends.  In the runs with neither (`AnswersUsable`), every transaction that is finalised without error has at most one
message, with the snapshot of its round (`Settled`), and the message can always still be sent (`can_send`).
-/

namespace BitzPool

open Transition Update

/-- The return data in the log are those of a mine event, whose rewards fit into `u64` together. -/
def LogFormat.Readable (fmt : LogFormat) (logs : List (List Char)) : Prop :=
  ∃ bytes ∈ fmt.decode (fmt.mineEventStr logs), bytes.length = 64 ∧
    (fromLeBytes ((bytes.drop 40).take 8)).toNat + (fromLeBytes ((bytes.drop 48).take 8)).toNat < 2 ^ 64

instance (fmt : LogFormat) (logs : List (List Char)) : Decidable (fmt.Readable logs) :=
  inferInstanceAs (Decidable (∃ bytes ∈ fmt.decode (fmt.mineEventStr logs), bytes.length = 64 ∧
    (fromLeBytes ((bytes.drop 40).take 8)).toNat + (fromLeBytes ((bytes.drop 48).take 8)).toNat < 2 ^ 64))

/-- An answer of `get_transaction_with_config` that is asked for again, or has the return data. -/
def TxAnswer.Usable (fmt : LogFormat) : TxAnswer → Prop
  | .error | .ok (some .none) | .ok (some .skip) => True
  | .ok none => False
  | .ok (some (.some logs)) => fmt.Readable logs

instance (fmt : LogFormat) : (a : TxAnswer) → Decidable (a.Usable fmt)
  | .error | .ok (some .none) | .ok (some .skip) => isTrue trivial
  | .ok none => isFalse id
  | .ok (some (.some logs)) => inferInstanceAs (Decidable (fmt.Readable logs))

/-- The reward is read from a log exactly when its return data are readable; otherwise the task is over. -/
theorem readTransaction_logs (fmt : LogFormat) (logs : List (List Char)) :
    (fmt.Readable logs ∧ ∃ full, readTransaction fmt (.ok (some (.some logs))) = .getChallenge full) ∨
      ¬ fmt.Readable logs ∧ (readTransaction fmt (.ok (some (.some logs))) = .dead ∨
        readTransaction fmt (.ok (some (.some logs))) = .done) := by
  rcases hbytes : fmt.decode (fmt.mineEventStr logs) with _ | bytes
  · refine Or.inr ⟨?_, Or.inl ?_⟩
    · rintro ⟨bytes, hmem, -⟩
      rw [hbytes] at hmem
      cases hmem
    · simp only [readTransaction, hbytes]
  · have hreadable : fmt.Readable logs ↔ bytes.length = 64 ∧
        (fromLeBytes ((bytes.drop 40).take 8)).toNat + (fromLeBytes ((bytes.drop 48).take 8)).toNat < 2 ^ 64 := by
      simp [LogFormat.Readable, hbytes]
    rw [hreadable]
    by_cases hlen : bytes.length = 64
    · by_cases hlt : (fromLeBytes ((bytes.drop 40).take 8)).toNat + (fromLeBytes ((bytes.drop 48).take 8)).toNat < 2 ^ 64
      · refine Or.inl ⟨⟨hlen, hlt⟩,
          fromLeBytes ((bytes.drop 40).take 8) + fromLeBytes ((bytes.drop 48).take 8), ?_⟩
        simp only [readTransaction, hbytes, MineEvent.tryFromBytes, if_pos hlen, checkedAdd, if_pos hlt]
      · refine Or.inr ⟨fun h => hlt h.2, Or.inl ?_⟩
        simp only [readTransaction, hbytes, MineEvent.tryFromBytes, if_pos hlen, checkedAdd, if_neg hlt]
    · refine Or.inr ⟨fun h => hlen h.1, Or.inr ?_⟩
      simp only [readTransaction, hbytes, MineEvent.tryFromBytes, if_neg hlen]

theorem readTransaction_of_readable {fmt : LogFormat} {logs : List (List Char)} (h : fmt.Readable logs) :
    ∃ full, readTransaction fmt (.ok (some (.some logs))) = .getChallenge full :=
  ((readTransaction_logs fmt logs).resolve_right fun hnot => hnot.1 h).2

/-- The usable answers are those that do not end the task. -/
theorem usable_iff {fmt : LogFormat} {a : TxAnswer} :
    a.Usable fmt ↔ readTransaction fmt a ≠ .dead ∧ readTransaction fmt a ≠ .done := by
  match a with
  | .error | .ok (some .none) | .ok (some .skip) => simp [TxAnswer.Usable, readTransaction]
  | .ok none => simp [TxAnswer.Usable, readTransaction]
  | .ok (some (.some logs)) =>
    rw [TxAnswer.Usable]
    rcases readTransaction_logs fmt logs with ⟨h, full, hfull⟩ | ⟨h, hend⟩
    · simp [h, hfull]
    · rcases hend with hend | hend <;> simp [h, hend]

namespace Mining

/-- A transaction that is finalised without error is one that the main loop has not given up, and an answer to
`get_transaction` has no log, or a readable one. -/
def AnswersUsable (su : MiningSetup) (s : Mining) : Action → Prop
  | .main input => ∀ tx ∈ s.main.givesUp input, ⟨tx, true⟩ ∉ s.chain.landed
  | .land tx ok => ok = true → s.main.tx? = some tx
  | .payout _ (.answer a) => a.Usable su.fmt
  | _ => True

instance (su : MiningSetup) (s : Mining) (a : Action) : Decidable (AnswersUsable su s a) :=
  match a with
  | .main input => inferInstanceAs (Decidable (∀ tx ∈ s.main.givesUp input, ⟨tx, true⟩ ∉ s.chain.landed))
  | .land tx ok => inferInstanceAs (Decidable (ok = true → s.main.tx? = some tx))
  | .payout _ (.answer a) => inferInstanceAs (Decidable (a.Usable su.fmt))
  | .payout _ (.call _) | .payout _ .send | .tick | .watcher _ _ | .notify _ | .track | .message _ | .handler _
  | .connections _ | .nonceRanges _ _ | .database _ => isTrue trivial

/-- The messages sent for a transaction. -/
def messagesOf (s : Mining) (sig : ℕ) : List MessageInternalMineSuccess :=
  (s.messages.filter fun x => x.1 = sig).map Prod.snd

/-! ### Steps of a payout task -/

/-- The messages of a task: one for its round when it is done, none before, and it is not lost. -/
def Delivers (r : Round) (pc : PayoutPc) (msgs : List MessageInternalMineSuccess) : Prop :=
  match pc with
  | .dead => False
  | .done => ∃ m, msgs = [m] ∧ m.challenge = r.challenge ∧ m.submissions = r.submissions
  | _ => msgs = []

end Mining

theorem PayoutPc.step_delivers {fmt : LogFormat} {cfg : Config} {r : Round} {db db' : Database} {i : PayoutInput}
    {pc pc' : PayoutPc} {msgs old : List MessageInternalMineSuccess}
    (h : pc.step fmt cfg r db i = some (db', pc', msgs)) (hold : Mining.Delivers r pc old)
    (ha : ∀ a, i = .answer a → a.Usable fmt) :
    Mining.Delivers r pc' (old ++ msgs) := by
  unfold PayoutPc.step at h
  split at h
  · next a =>
    cases h
    cases hold
    obtain ⟨h1, h2⟩ := usable_iff.1 (ha a rfl)
    generalize readTransaction fmt a = pc' at h1 h2
    cases pc' <;> first | rfl | exact absurd rfl h1 | exact absurd rfl h2
  · split at h <;> cases h <;> cases hold <;> rfl
  · split at h <;> cases h <;> cases hold <;> rfl
  · split at h <;> cases h <;> cases hold <;> rfl
  · split at h <;> cases h <;> cases hold <;> rfl
  · cases h
    cases hold
    exact ⟨_, rfl, rfl, rfl⟩
  · cases h

namespace Mining

/-! ### The invariant -/

/-- The rounds that have a payout task. -/
def paid (s : Mining) : List Round := s.payouts.map Prod.fst

/-- The payout tasks and messages of the finalised transactions: each transaction that is finalised without error is
the current one, or has a payout task; tasks belong to distinct transactions and carry the snapshot of their round. -/
structure Settled (s : Mining) : Prop where
  tracked : Tracked s.history.rounds s.chain s.main
  spawned : ∀ {tx}, ⟨tx, true⟩ ∈ s.chain.landed → s.main.tx? = some tx ∨ ∃ r ∈ s.paid, r.sig = tx.id
  unpaid : ∀ {tx r}, s.main.tx? = some tx → r ∈ s.paid → r.sig ≠ tx.id
  round : ∀ {r}, r ∈ s.paid → ∃ tx, ⟨tx, true⟩ ∈ s.chain.landed ∧ tx.id = r.sig ∧
    s.history.rounds[tx.round]? = some (r.challenge, r.submissions)
  distinct : (s.paid.map Round.sig).Nodup
  sender : ∀ {x}, x ∈ s.messages → ∃ r ∈ s.paid, r.sig = x.1
  delivers : ∀ {t}, t ∈ s.payouts → Delivers t.1 t.2 (s.messagesOf t.1.sig)

variable {su : MiningSetup} {s s' : Mining} {a : Action}

theorem start_settled (proof : Proof) (db : Database) : (start proof db).Settled where
  tracked := by
    refine ⟨fun h => ?_, fun h => ?_, fun h => ?_, fun h => ?_, fun h => ?_, fun h => ?_⟩ <;> cases h
  spawned h := by cases h
  unpaid h := by cases h
  round h := by cases h
  distinct := List.nodup_nil
  sender h := by cases h
  delivers h := by cases h

/-- Steps that touch neither transactions nor payouts. -/
private theorem Settled.frame (hs : s.Settled) (hchain : s'.chain = s.chain) (hmain : s'.main = s.main)
    (hpayouts : s'.payouts = s.payouts) (hmessages : s'.messages = s.messages)
    (hrounds : s'.history.rounds = s.history.rounds) : s'.Settled := by
  have hpaid : s'.paid = s.paid := by rw [paid, paid, hpayouts]
  have hof : ∀ sig, s'.messagesOf sig = s.messagesOf sig := fun sig => by rw [messagesOf, messagesOf, hmessages]
  obtain ⟨h1, h2, h3, h4, h5, h6, h7⟩ := hs
  constructor <;> simp only [hchain, hmain, hpayouts, hmessages, hrounds, hof, hpaid] <;> assumption

theorem messagesOf_eq_nil (hs : s.Settled) {sig : ℕ} (h : ∀ r ∈ s.paid, r.sig ≠ sig) : s.messagesOf sig = [] := by
  rw [messagesOf, List.map_eq_nil_iff, List.filter_eq_nil_iff]
  intro x hx he
  obtain ⟨r, hr, hsig⟩ := hs.sender hx
  exact h r hr (hsig.trans (by simpa using he))

/-- A step of a payout task leaves the rounds that have one. -/
private theorem paid_set {k : ℕ} {r : Round} {pc : PayoutPc} (hk : s.payouts[k]? = some (r, pc)) (pc' : PayoutPc) :
    (s.payouts.set k (r, pc')).map Prod.fst = s.paid := by
  have hr : (s.payouts.map Prod.fst)[k]? = some r := by rw [List.getElem?_map, hk]; rfl
  obtain ⟨hlt, hr⟩ := List.getElem?_eq_some_iff.1 hr
  calc (s.payouts.set k (r, pc')).map Prod.fst = (s.payouts.map Prod.fst).set k r := List.map_set
    _ = s.paid := by rw [paid, ← hr, List.set_getElem_self]

private theorem sig_getElem? {i : ℕ} {t : Round × PayoutPc} (h : s.payouts[i]? = some t) :
    (s.paid.map Round.sig)[i]? = some t.1.sig := by
  simp [paid, h]

theorem Settled.payout (hs : s.Settled) {k : ℕ} {input : PayoutInput} {r : Round} {pc pc' : PayoutPc} {db : Database}
    {msgs : List MessageInternalMineSuccess} (hk : s.payouts[k]? = some (r, pc))
    (h : pc.step su.fmt su.config r s.mem.db input = some (db, pc', msgs))
    (hg : AnswersUsable su s (.payout k input)) (hpayouts : s'.payouts = s.payouts.set k (r, pc'))
    (hmessages : s'.messages = s.messages ++ msgs.map fun msg => (r.sig, msg)) (hchain : s'.chain = s.chain)
    (hmain : s'.main = s.main) (hrounds : s'.history.rounds = s.history.rounds) : s'.Settled := by
  have hr : r ∈ s.paid := List.mem_map.2 ⟨_, List.mem_of_getElem? hk, rfl⟩
  have hpaid : s'.paid = s.paid := by rw [paid, hpayouts, paid_set hk]
  have hof : ∀ sig, s'.messagesOf sig = s.messagesOf sig ++ if r.sig = sig then msgs else [] := by
    intro sig
    rw [messagesOf, hmessages, List.filter_append, List.map_append, messagesOf]
    by_cases he : r.sig = sig <;> simp [he, List.filter_map, Function.comp_def]
  refine ⟨?_, fun hl => ?_, fun htx hr' => ?_, fun hr' => ?_, ?_, fun {x} hx => ?_, fun {t} ht => ?_⟩
  · rw [hrounds, hchain, hmain]
    exact hs.tracked
  · rw [hmain, hpaid]
    exact hs.spawned (hchain ▸ hl)
  · exact hs.unpaid (hmain ▸ htx) (hpaid ▸ hr')
  · rw [hchain, hrounds]
    exact hs.round (hpaid ▸ hr')
  · rw [hpaid]
    exact hs.distinct
  · rw [hpaid]
    rw [hmessages] at hx
    rcases List.mem_append.1 hx with hx | hx
    · exact hs.sender hx
    · obtain ⟨m, -, rfl⟩ := List.mem_map.1 hx
      exact ⟨r, hr, rfl⟩
  · rw [hof]
    rw [hpayouts] at ht
    obtain ⟨j, hj⟩ := List.mem_iff_getElem?.1 ht
    rcases getElem?_set_cases hj with ⟨-, rfl⟩ | ⟨hjk, hj⟩
    · rw [if_pos rfl]
      exact PayoutPc.step_delivers h (hs.delivers (List.mem_of_getElem? hk)) fun a ha => by subst ha; exact hg
    · -- the other tasks belong to other transactions
      have hne : r.sig ≠ t.1.sig := by
        intro he
        have hlt := (List.getElem?_eq_some_iff.1 (sig_getElem? hj)).1
        exact hjk ((List.getElem?_inj hlt hs.distinct).1 ((sig_getElem? hj).trans (he ▸ (sig_getElem? hk).symm)))
      rw [if_neg hne, List.append_nil]
      exact hs.delivers (List.mem_of_getElem? hj)

theorem event_rounds (s : Mining) (m : EpochMemory) (ev : MainEvent) :
    (s.event m ev).history.rounds = ev.rounds s.history.rounds := by
  cases ev with
  | op op => cases op <;> rfl
  | _ => rfl

theorem event_payouts {s : Mining} {m : EpochMemory} {ev : MainEvent} (h : ∀ id r, ev ≠ .stop id (some r)) :
    (s.event m ev).payouts = s.payouts := by
  cases ev with
  | stop id r =>
    cases r with
    | none => exact List.append_nil _
    | some r => exact absurd rfl (h id r)
  | _ => rfl

/-- The main loop moves on without a payout task. -/
private theorem Settled.goOn (hs : s.Settled) {input : MainInput} (hg : AnswersUsable su s (.main input)) {m : MainMemory}
    {pc : MainPc} {ev : MainEvent}
    (h : MainStep su.drillx su.config.poolId s.history.rounds.length ⟨s.mem, s.chain⟩ input s.main m pc ev)
    (hev : ∀ id r, ev ≠ .stop id (some r)) :
    ({ s with mem := m.mem, chain := m.chain, main := pc }.event s.mem ev).Settled := by
  have hlanded : m.chain.landed = s.chain.landed := h.landed
  have hpaid : ({ s with mem := m.mem, chain := m.chain, main := pc }.event s.mem ev).paid = s.paid := by
    rw [paid, event_payouts hev, paid]
  have hof : ∀ sig, ({ s with mem := m.mem, chain := m.chain, main := pc }.event s.mem ev).messagesOf sig =
      s.messagesOf sig := fun sig => by rw [messagesOf, event_messages, messagesOf]
  refine ⟨?_, fun hl => ?_, fun {tx r} htx hr => ?_, fun {r} hr => ?_, ?_, fun hx => ?_, fun ht => ?_⟩
  · rw [event_rounds, event_chain, event_main]
    exact hs.tracked.main h hg
  · rw [event_chain] at hl
    rw [event_main, hpaid]
    have hl' := hlanded ▸ hl
    rcases hs.spawned hl' with htx | hr
    · rcases hs.tracked.current_or_spawned h hg htx hl' with htx' | ⟨r, best, he⟩
      · exact Or.inl htx'
      · exact (hev _ _ he).elim
    · exact Or.inr hr
  · rw [event_main] at htx
    rw [hpaid] at hr
    rcases h.tx?_cases htx with htx | ⟨r', hb⟩
    · exact hs.unpaid htx hr
    · obtain ⟨tx', hl, hsig, -⟩ := hs.round hr
      exact fun he => (hs.tracked.built hb).2.2 tx' (s.chain.landedSent _ hl) (hsig.trans he)
  · rw [event_chain, event_rounds]
    obtain ⟨tx, hl, hsig, hrounds⟩ := hs.round (hpaid ▸ hr)
    exact ⟨tx, hlanded ▸ hl, hsig, ev.rounds_getElem? hrounds⟩
  · rw [hpaid]
    exact hs.distinct
  · rw [event_messages] at hx
    rw [hpaid]
    exact hs.sender hx
  · rw [event_payouts hev] at ht
    rw [hof]
    exact hs.delivers ht

/-- The main loop spawns the payout task of the transaction it has seen finalised. -/
private theorem Settled.spawn (hs : s.Settled) {r : MainRound} {best : Solution} {k : ℕ} {tx : MineTx}
    (hpc : s.main = .stop r best k tx true) (htracked : Tracked s.history.rounds s.chain (.readProof r)) :
    ({ s with main := .readProof r }.event s.mem (.stop tx.id (some (r.payout su.drillx best tx)))).Settled := by
  have hwork : s.main.work? = some (r, tx) := by rw [hpc]; rfl
  have htx : s.main.tx? = some tx := by rw [MainPc.tx?, hwork]; rfl
  have hl : ⟨tx, true⟩ ∈ s.chain.landed := hs.tracked.seen (x := (r, tx)) (by rw [hpc]; rfl)
  have hrounds : s.history.rounds[tx.round]? = some (r.old.challenge, r.submissions) := by
    rw [(hs.tracked.work hwork).1]
    exact hs.tracked.round (MainPc.round?_of_trying? (MainPc.trying?_of_work? hwork))
  have hnew : ∀ r' ∈ s.paid, r'.sig ≠ tx.id := fun r' hr' => hs.unpaid htx hr'
  set p := r.payout su.drillx best tx with hp
  have hpaid : (s.payouts ++ [(p, PayoutPc.getTransaction)]).map Prod.fst = s.paid ++ [p] := by
    rw [List.map_append, paid]
    rfl
  have hmem : ∀ r', r' ∈ (s.payouts ++ [(p, PayoutPc.getTransaction)]).map Prod.fst ↔ r' ∈ s.paid ∨ r' = p := by
    intro r'
    rw [hpaid, List.mem_append, List.mem_singleton]
  refine ⟨htracked, fun hl' => Or.inr ?_, fun h => (by cases h), fun {r'} hr' => ?_, ?_, fun {x} hx => ?_,
    fun {t} ht => ?_⟩
  · rcases hs.spawned hl' with htx' | ⟨r', hr', he⟩
    · cases htx.symm.trans htx'
      exact ⟨p, (hmem p).2 (Or.inr rfl), rfl⟩
    · exact ⟨r', (hmem r').2 (Or.inl hr'), he⟩
  · rcases (hmem r').1 hr' with hr' | rfl
    · exact hs.round hr'
    · exact ⟨tx, hl, rfl, hrounds⟩
  · show (((s.payouts ++ [(p, PayoutPc.getTransaction)]).map Prod.fst).map Round.sig).Nodup
    rw [hpaid, List.map_append, List.nodup_append]
    refine ⟨hs.distinct, List.nodup_singleton _, ?_⟩
    rintro _ hsig _ hsig' rfl
    obtain ⟨r', hr', rfl⟩ := List.mem_map.1 hsig
    exact hnew r' hr' (List.mem_singleton.1 hsig')
  · obtain ⟨r', hr', he⟩ := hs.sender hx
    exact ⟨r', (hmem r').2 (Or.inl hr'), he⟩
  · rcases List.mem_append.1 ht with ht | ht
    · exact hs.delivers ht
    · rw [List.mem_singleton.1 ht]
      exact messagesOf_eq_nil hs hnew

theorem Settled.main (hs : s.Settled) {input : MainInput} (hg : AnswersUsable su s (.main input)) {m : MainMemory}
    {pc : MainPc} {ev : MainEvent}
    (h : MainStep su.drillx su.config.poolId s.history.rounds.length ⟨s.mem, s.chain⟩ input s.main m pc ev) :
    ({ s with mem := m.mem, chain := m.chain, main := pc }.event s.mem ev).Settled := by
  rcases h.spawn_cases with hev | ⟨r, best, k, tx, hpc, rfl, rfl, rfl⟩
  · exact hs.goOn hg h hev
  · exact hs.spawn hpc (hs.tracked.main h hg)

theorem Settled.step (hs : s.Settled) (hg : AnswersUsable su s a) (h : Step su s a s') : s'.Settled := by
  cases h with
  | main h => exact hs.main hg h
  | payout hk h => exact hs.payout hk h hg rfl rfl rfl rfl rfl
  | @watcher k input w m pc op hw h =>
    refine hs.frame rfl rfl rfl rfl ?_
    cases op with
    | none => rfl
    | some op => exact History.exec_rounds ..
  | @handler k msg pc pc' m ht h =>
    exact hs.frame rfl rfl rfl rfl (History.accept_rounds ..)
  | @land tx ok c h =>
    have hlanded : c.landed = ⟨tx, ok⟩ :: s.chain.landed := (Broadcast.Chain.land?_eq_some h).2.2.2.2
    refine ⟨hs.tracked.land h hg, fun hl => ?_, hs.unpaid, fun hr => ?_, hs.distinct, hs.sender, hs.delivers⟩
    · rcases List.mem_cons.1 (hlanded ▸ hl) with he | hl
      · cases he
        exact Or.inl (hg rfl)
      · exact hs.spawned hl
    · obtain ⟨tx', hl, h⟩ := hs.round hr
      exact ⟨tx', hlanded ▸ List.mem_cons_of_mem _ hl, h⟩
  | _ => exact hs.frame rfl rfl rfl rfl rfl

/-! ### A task can always go on -/

/-- The task `k` of the round `r` can come to its end, with usable answers. -/
def CanFinish (su : MiningSetup) (s : Mining) (k : ℕ) (r : Round) : Prop :=
  ∃ s', Reaches (step su) (AnswersUsable su) s s' ∧ s'.payouts[k]? = some (r, .done)

section Progress

variable {k : ℕ} {r : Round} {full : UInt64} {id : RowId}

private theorem CanFinish.of_step {input : PayoutInput} {pc pc' : PayoutPc} {db : Database}
    {msgs : List MessageInternalMineSuccess} (hk : s.payouts[k]? = some (r, pc))
    (h : pc.step su.fmt su.config r s.mem.db input = some (db, pc', msgs))
    (hg : AnswersUsable su s (.payout k input))
    (hnext : ∀ t : Mining, t.mem.db = db → t.payouts[k]? = some (r, pc') → CanFinish su t k r) :
    CanFinish su s k r := by
  have hstep : step su s (.payout k input) = some { s with
      mem.db := db
      payouts := s.payouts.set k (r, pc')
      messages := s.messages ++ msgs.map fun msg => (r.sig, msg) } := by
    simp [step, stepPayout, hk, h]
  obtain ⟨s', hreach, hs'⟩ := hnext { s with
      mem.db := db
      payouts := s.payouts.set k (r, pc')
      messages := s.messages ++ msgs.map fun msg => (r.sig, msg) } rfl
    (List.getElem?_set_self (List.getElem?_eq_some_iff.1 hk).1)
  exact ⟨s', hreach.head hg hstep, hs'⟩

private theorem canFinish_send (hk : s.payouts[k]? = some (r, .send full id)) : CanFinish su s k r := by
  have h : PayoutPc.step su.fmt su.config r s.mem.db .send (.send full id) =
      some (s.mem.db, .done, [r.message full id]) := rfl
  exact .of_step hk h trivial fun t _ ht => ⟨t, .refl _ _ _, ht⟩

private theorem canFinish_credit (hk : s.payouts[k]? = some (r, .updateRewards full id)) : CanFinish su s k r := by
  obtain ⟨db, he⟩ : ∃ db, updateRewards .executed (commissionBatch su.config full) s.mem.db = (.ok (), db) := by
    rw [updateRewards]
    split <;> exact ⟨_, rfl⟩
  have h : PayoutPc.step su.fmt su.config r s.mem.db (.call .executed) (.updateRewards full id) =
      some (db, .send full id, []) := by
    simp only [PayoutPc.step, he]
  exact .of_step hk h trivial fun t _ ht => canFinish_send ht

private theorem canFinish_found {row : ChallengeRow} (hk : s.payouts[k]? = some (r, .getChallenge full))
    (hrow : s.mem.db.challenges.find? r.challenge = some row) : CanFinish su s k r := by
  have h : PayoutPc.step su.fmt su.config r s.mem.db (.call .executed) (.getChallenge full) =
      some (s.mem.db, .updateRewards full row.id, []) := by
    simp only [PayoutPc.step, getChallengeByChallenge_some hrow]
  exact .of_step hk h trivial fun t _ ht => canFinish_credit ht

private theorem canFinish_add (hk : s.payouts[k]? = some (r, .addChallenge full)) : CanFinish su s k r := by
  cases hrow : s.mem.db.challenges.find? r.challenge with
  | none =>
    obtain ⟨db, row, hadd, hrow'⟩ := addNewChallenge_none hrow su.config.poolId
    have h : PayoutPc.step su.fmt su.config r s.mem.db (.call .executed) (.addChallenge full) =
        some (db, .getChallenge full, []) := by
      simp only [PayoutPc.step, hadd]
    exact .of_step hk h trivial fun t hdb ht => canFinish_found ht (hdb ▸ hrow')
  | some row =>
    -- the row is there: the insertion is rejected, and the verification finds it
    have h : PayoutPc.step su.fmt su.config r s.mem.db (.call .executed) (.addChallenge full) =
        some (s.mem.db, .verifyChallenge full, []) := by
      simp only [PayoutPc.step, addNewChallenge_some hrow]
    refine .of_step hk h trivial fun t hdb ht => ?_
    have hrow' : t.mem.db.challenges.find? r.challenge = some row := hdb ▸ hrow
    have h' : PayoutPc.step su.fmt su.config r t.mem.db (.call .executed) (.verifyChallenge full) =
        some (t.mem.db, .getChallenge full, []) := by
      simp only [PayoutPc.step, getChallengeByChallenge_some hrow']
    exact .of_step ht h' trivial fun u hdb' hu => canFinish_found hu (hdb' ▸ hrow')

private theorem canFinish_challenge (hk : s.payouts[k]? = some (r, .getChallenge full)) : CanFinish su s k r := by
  cases hrow : s.mem.db.challenges.find? r.challenge with
  | some row => exact canFinish_found hk hrow
  | none =>
    have h : PayoutPc.step su.fmt su.config r s.mem.db (.call .executed) (.getChallenge full) =
        some (s.mem.db, .addChallenge full, []) := by
      simp only [PayoutPc.step, getChallengeByChallenge_none hrow]
    exact .of_step hk h trivial fun t _ ht => canFinish_add ht

private theorem canFinish_verify (hk : s.payouts[k]? = some (r, .verifyChallenge full)) : CanFinish su s k r := by
  cases hrow : s.mem.db.challenges.find? r.challenge with
  | some row =>
    have h : PayoutPc.step su.fmt su.config r s.mem.db (.call .executed) (.verifyChallenge full) =
        some (s.mem.db, .getChallenge full, []) := by
      simp only [PayoutPc.step, getChallengeByChallenge_some hrow]
    exact .of_step hk h trivial fun t _ ht => canFinish_challenge ht
  | none =>
    have h : PayoutPc.step su.fmt su.config r s.mem.db (.call .executed) (.verifyChallenge full) =
        some (s.mem.db, .addChallenge full, []) := by
      simp only [PayoutPc.step, getChallengeByChallenge_none hrow]
    exact .of_step hk h trivial fun t _ ht => canFinish_add ht

/-- A task that is not lost can come to its end from wherever it stands. -/
theorem canFinish_of_ne_dead {pc : PayoutPc} (hk : s.payouts[k]? = some (r, pc)) (hpc : pc ≠ .dead)
    (hfmt : ∃ logs, su.fmt.Readable logs) : CanFinish su s k r := by
  cases pc with
  | getTransaction =>
    obtain ⟨logs, hlogs⟩ := hfmt
    obtain ⟨full, hfull⟩ := readTransaction_of_readable hlogs
    have h : PayoutPc.step su.fmt su.config r s.mem.db (.answer (.ok (some (.some logs)))) .getTransaction =
        some (s.mem.db, .getChallenge full, []) := by
      simp only [PayoutPc.step, hfull]
    exact .of_step hk h hlogs fun t _ ht => canFinish_challenge ht
  | getChallenge full => exact canFinish_challenge hk
  | addChallenge full => exact canFinish_add hk
  | verifyChallenge full => exact canFinish_verify hk
  | updateRewards full id => exact canFinish_credit hk
  | send full id => exact canFinish_send hk
  | done => exact ⟨s, .refl _ _ _, hk⟩
  | dead => exact absurd rfl hpc

/-- The main loop can come to spawn the payout task of a transaction, with usable answers. -/
def CanSpawn (su : MiningSetup) (s : Mining) (tx : MineTx) : Prop :=
  ∃ (s' : Mining) (k : ℕ) (r : Round), Reaches (step su) (AnswersUsable su) s s' ∧
    s'.payouts[k]? = some (r, .getTransaction) ∧ r.sig = tx.id

private theorem step_main (su : MiningSetup) (s : Mining) (input : MainInput) {m : MainMemory} {pc : MainPc} {ev : MainEvent}
    (h : s.main.step su.drillx su.config.poolId s.now s.history.rounds.length ⟨s.mem, s.chain⟩ input =
      some (m, pc, ev)) :
    step su s (.main input) = some ({ s with mem := m.mem, chain := m.chain, main := pc }.event s.mem ev) := by
  simp [step, stepMain, h]

variable {mr : MainRound} {best : Solution} {i attempts : ℕ} {tx : MineTx}

private theorem canSpawn_stop (hpc : s.main = .stop mr best i tx true) : CanSpawn su s tx := by
  have h := step_main su s .go (by rw [hpc]; rfl)
  refine ⟨_, s.payouts.length, mr.payout su.drillx best tx, Reaches.head ?_ h (.refl _ _ _), ?_, rfl⟩
  · show ∀ tx ∈ s.main.givesUp .go, _
    rw [hpc]
    exact fun _ ht => by cases ht
  · exact List.getElem?_concat_length

private theorem CanSpawn.of_step {t : Mining} {a : Action} (hg : AnswersUsable su s a) (h : step su s a = some t)
    (hnext : CanSpawn su t tx) : CanSpawn su s tx := by
  obtain ⟨s', k, r, hreach, hs'⟩ := hnext
  exact ⟨s', k, r, hreach.head hg h, hs'⟩

private theorem canSpawn_poll (hpc : s.main = .poll mr best i tx) (hl : ⟨tx, true⟩ ∈ s.chain.landed) :
    CanSpawn su s tx := by
  have h := step_main su s (.status (.finalized true)) (by rw [hpc]; exact if_pos hl)
  refine .of_step ?_ h (canSpawn_stop rfl)
  show ∀ tx ∈ s.main.givesUp _, _
  rw [hpc]
  exact fun _ ht => by cases ht

private theorem canSpawn_send (hpc : s.main = .send mr best i tx attempts) (hl : ⟨tx, true⟩ ∈ s.chain.landed) :
    CanSpawn su s tx := by
  have h := step_main su s (.send true) (by rw [hpc]; rfl)
  refine .of_step ?_ h (canSpawn_poll rfl hl)
  show ∀ tx ∈ s.main.givesUp _, _
  rw [hpc]
  exact fun _ ht => by cases ht

/-- The current transaction, once it is finalised, can get its payout task. -/
theorem canSpawn_of_current (htx : s.main.tx? = some tx) (hl : ⟨tx, true⟩ ∈ s.chain.landed) : CanSpawn su s tx := by
  rw [MainPc.tx?, Option.map_eq_some_iff] at htx
  obtain ⟨⟨r, tx'⟩, hwork, rfl⟩ := htx
  unfold MainPc.work? at hwork
  split at hwork
  · next hpc =>
    cases hwork
    exact canSpawn_send hpc hl
  · next hpc =>
    cases hwork
    exact canSpawn_poll hpc hl
  · next hpc =>
    cases hwork
    exact canSpawn_stop hpc
  · cases hwork

end Progress

/-! ### The messages of a finalised transaction -/

section

variable {tx : MineTx} {r : Round} {pc : PayoutPc}

/-- A round with the signature of a finalised transaction carries the snapshot of the transaction's round. -/
private theorem Settled.rounds_eq (hs : s.Settled) (hl : ⟨tx, true⟩ ∈ s.chain.landed) (hr : r ∈ s.paid)
    (hsig : r.sig = tx.id) : s.history.rounds[tx.round]? = some (r.challenge, r.submissions) := by
  obtain ⟨tx', hl', hid, hrounds⟩ := hs.round hr
  cases Broadcast.Chain.landed_inj hl hl' (hsig.symm.trans hid.symm)
  exact hrounds

theorem Settled.messagesOf_done (hs : s.Settled) (hl : ⟨tx, true⟩ ∈ s.chain.landed)
    (ht : (r, .done) ∈ s.payouts) (hsig : r.sig = tx.id) :
    ∃ m, s.messagesOf tx.id = [m] ∧ s.history.rounds[tx.round]? = some (m.challenge, m.submissions) := by
  obtain ⟨m, hm, hc, hsub⟩ := hs.delivers ht
  refine ⟨m, hsig ▸ hm, ?_⟩
  rw [hc, hsub]
  exact hs.rounds_eq hl (List.mem_map.2 ⟨_, ht, rfl⟩) hsig

/-- A finalised transaction has no message yet, or one with the snapshot of its round. -/
theorem Settled.messagesOf_cases (hs : s.Settled) (hl : ⟨tx, true⟩ ∈ s.chain.landed) :
    s.messagesOf tx.id = [] ∨
      ∃ m, s.messagesOf tx.id = [m] ∧ s.history.rounds[tx.round]? = some (m.challenge, m.submissions) := by
  rcases hs.spawned hl with htx | ⟨r, hr, hsig⟩
  · exact Or.inl (messagesOf_eq_nil hs fun r hr => hs.unpaid htx hr)
  · obtain ⟨⟨r', pc⟩, ht, rfl⟩ := List.mem_map.1 hr
    have hd : Delivers r' pc (s.messagesOf tx.id) := hsig ▸ hs.delivers ht
    cases pc with
    | done => exact Or.inr (hs.messagesOf_done hl ht hsig)
    | dead => exact hd.elim
    | _ => exact Or.inl hd

/-- A failed round has no finalised transaction. -/
theorem Settled.discard (hs : s.Settled) (hl : ⟨tx, true⟩ ∈ s.chain.landed) {mr : MainRound} {ops : List EpochOp}
    (hpc : s.main = .discard mr ops) : tx.round ≠ mr.index := by
  intro he
  have htx := hs.tracked.current (r := mr) (by rw [hpc]; rfl) hl rfl he
  rw [hpc] at htx
  cases htx

theorem Step.landed (h : Step su s a s') {l : MinedTx} (hl : l ∈ s.chain.landed) : l ∈ s'.chain.landed := by
  cases h with
  | main h =>
    rw [event_chain, h.landed]
    exact hl
  | land h =>
    rw [(Broadcast.Chain.land?_eq_some h).2.2.2.2]
    exact List.mem_cons_of_mem _ hl
  | _ => exact hl

theorem settled_of_reaches (hs : s.Settled) (h : Reaches (step su) (AnswersUsable su) s s') : s'.Settled := by
  obtain ⟨as, hg, h⟩ := h
  exact run_invariant (fun hs hC hstep => Settled.step hs hC (step_sound hstep)) hs hg h

theorem landed_of_reaches (h : Reaches (step su) (AnswersUsable su) s s') {l : MinedTx}
    (hl : l ∈ s.chain.landed) : l ∈ s'.chain.landed := by
  obtain ⟨as, -, h⟩ := h
  exact run_invariant' (fun hl hstep => Step.landed (step_sound hstep) hl) hl h

/-- The message of a finalised transaction can always still be sent. -/
theorem can_send (hs : s.Settled) (hl : ⟨tx, true⟩ ∈ s.chain.landed)
    (hfmt : ∃ logs, su.fmt.Readable logs) :
    ∃ s', Reaches (step su) (AnswersUsable su) s s' ∧
      ∃ m, s'.messagesOf tx.id = [m] ∧ s'.history.rounds[tx.round]? = some (m.challenge, m.submissions) := by
  have finish : ∀ {t : Mining} {k : ℕ} {r : Round} {pc : PayoutPc}, Reaches (step su) (AnswersUsable su) s t →
      t.payouts[k]? = some (r, pc) → pc ≠ .dead → r.sig = tx.id → ∃ s', Reaches (step su) (AnswersUsable su) s s' ∧
      ∃ m, s'.messagesOf tx.id = [m] ∧ s'.history.rounds[tx.round]? = some (m.challenge, m.submissions) := by
    intro t k r pc ht hk hpc hsig
    obtain ⟨s', hreach, hdone⟩ := canFinish_of_ne_dead hk hpc hfmt
    have hreach' := ht.trans hreach
    exact ⟨s', hreach', (settled_of_reaches hs hreach').messagesOf_done (landed_of_reaches hreach' hl)
      (List.mem_of_getElem? hdone) hsig⟩
  rcases hs.spawned hl with htx | ⟨r, hr, hsig⟩
  · have hspawn : CanSpawn su s tx := canSpawn_of_current htx hl
    obtain ⟨t, k, r, ht, hk, hsig⟩ := hspawn
    exact finish ht hk (by simp) hsig
  · obtain ⟨⟨r', pc⟩, ht, rfl⟩ := List.mem_map.1 hr
    obtain ⟨k, hk⟩ := List.mem_iff_getElem?.1 ht
    refine finish (.refl _ _ _) hk ?_ hsig
    rintro rfl
    exact (hs.delivers ht).elim

end

/-- An answer with the reward in its log. -/
def exampleAnswer : TxAnswer := .ok (some (.some ["Program return: eore ".toList ++ exampleLog]))

/-- A round up to the message of its payout task. -/
def paidRound : List Action :=
  exampleWorld ++ accept 0 (exampleBest 1 1) ++ List.replicate 60 .tick ++ takeSnapshot ++ sendTx ++
    seeFinalized ⟨0, 0⟩ ++ [.payout 0 (.answer exampleAnswer)] ++ List.replicate 4 (.payout 0 (.call .executed)) ++
      [.payout 0 .send]

end Mining

end BitzPool
