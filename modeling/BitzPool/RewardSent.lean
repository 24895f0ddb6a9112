import BitzPool.Distribution
import BitzPool.EnsureChallenge

/-!
# Every mined reward is distributed

A transaction that is finalised without error has at most one message (`Settled`).  That it gets one takes turns: the
main loop has to see it finalised, and its payout task has to read the reward, make sure of the challenge, credit the
commission and send.  Polls without news, answers of the RPC node that are asked for again, and calls that fail keep
the two where they are for as long as they come.  When both get their turns while they have something left to do and
finitely many of these come (`RewardServed`), the message is sent (`reward_distributed`).
-/

namespace BitzPool

open Keyed Transition Update

/-- A bound for the steps of the main loop with its transaction, the polls without news apart. -/
def MainPc.stepsLeft : MainPc → ℕ
  | .send _ _ _ _ attempts => 2 + (maxSendAttempts - attempts)
  | .poll _ _ _ _ => 1
  | _ => 0

/-- A bound for the steps of a payout task whose calls are executed, when its challenge has a row or not. -/
def PayoutPc.stepsLeft (found : Bool) : PayoutPc → ℕ
  | .getTransaction => 7
  | .getChallenge _ => 2 + EnsurePc.get.rank found
  | .addChallenge _ => 2 + EnsurePc.add.rank found
  | .verifyChallenge _ => 2 + EnsurePc.verify.rank found
  | .updateRewards _ _ => 2
  | .send _ _ => 1
  | .done | .dead => 0

/-- A row that is added does not raise the bound. -/
theorem PayoutPc.stepsLeft_le {found found' : Bool} (h : found = true → found' = true) (pc : PayoutPc) :
    pc.stepsLeft found' ≤ pc.stepsLeft found := by
  cases pc with
  | getChallenge | addChallenge | verifyChallenge => exact Nat.add_le_add_left (EnsurePc.rank_le h _) 2
  | _ => exact Nat.le_refl _

/-- The turns of a payout task that bring it nearer to its end: a log that can be read, and a call that is executed. -/
structure PayoutInput.Good (fmt : LogFormat) (i : PayoutInput) : Prop where
  answer : ∀ x, i = .answer x → ∃ logs, x = .ok (some (.some logs)) ∧ fmt.Readable logs
  call : ∀ o, i = .call o → o = .executed

/-- An executed query finds the challenge when it has a row, and fails when it has none. -/
private theorem getChallenge_executed (c : Challenge) (db : Database) :
    (∃ row, getChallengeByChallenge .executed c db = .ok row ∧ db.challenges.Has c) ∨
      ∃ e, getChallengeByChallenge .executed c db = .error e ∧ ¬ db.challenges.Has c := by
  rcases hrow : db.challenges.find? c with _ | row
  · exact Or.inr ⟨_, getChallengeByChallenge_none hrow, Table.find?_eq_none.1 hrow⟩
  · exact Or.inl ⟨row, getChallengeByChallenge_some hrow, Table.has_iff.2 ⟨row, hrow⟩⟩

theorem PayoutPc.stepsLeft_lt {fmt : LogFormat} {cfg : Config} {r : Round} {db db' : Database} {i : PayoutInput}
    {pc pc' : PayoutPc} {msgs : List MessageInternalMineSuccess}
    (h : pc.step fmt cfg r db i = some (db', pc', msgs)) (hi : i.Good fmt) :
    pc'.stepsLeft (db'.challenges.Has r.challenge) < pc.stepsLeft (db.challenges.Has r.challenge) := by
  unfold PayoutPc.step at h
  split at h
  · next x =>
    obtain ⟨logs, rfl, hlogs⟩ := hi.answer x rfl
    obtain ⟨full, hfull⟩ := readTransaction_of_readable hlogs
    rw [hfull] at h
    cases h
    by_cases hhas : db.challenges.Has r.challenge <;> simp [stepsLeft, EnsurePc.rank, hhas]
  · next o full =>
    obtain rfl := hi.call o rfl
    rcases getChallenge_executed r.challenge db with ⟨row, hget, hhas⟩ | ⟨e, hget, hhas⟩
    · rw [hget] at h
      cases h
      simp [stepsLeft, EnsurePc.rank, hhas]
    · rw [hget] at h
      cases h
      simp [stepsLeft, EnsurePc.rank, hhas]
  · next o full =>
    obtain rfl := hi.call o rfl
    rcases hrow : db.challenges.find? r.challenge with _ | row
    · obtain ⟨db₁, row, hadd, hrow'⟩ := addNewChallenge_none hrow cfg.poolId
      rw [hadd] at h
      cases h
      simp [stepsLeft, EnsurePc.rank, Table.has_iff.2 ⟨row, hrow'⟩]
    · rw [addNewChallenge_some hrow] at h
      cases h
      simp [stepsLeft, EnsurePc.rank, Table.has_iff.2 ⟨row, hrow⟩]
  · next o full =>
    obtain rfl := hi.call o rfl
    rcases getChallenge_executed r.challenge db with ⟨row, hget, hhas⟩ | ⟨e, hget, hhas⟩
    · rw [hget] at h
      cases h
      simp [stepsLeft, EnsurePc.rank, hhas]
    · rw [hget] at h
      cases h
      simp [stepsLeft, EnsurePc.rank, hhas]
  · next o full id =>
    obtain rfl := hi.call o rfl
    split at h
    · cases h
      exact Nat.lt_succ_self 1
    · next he =>
      -- an executed call of `update_rewards` never reports an error
      exact absurd (updateRewards_error_iff.1 (by rw [he]; simp)) (by simp)
  · cases h
    exact Nat.zero_lt_one
  · cases h

namespace Mining

variable {su : MiningSetup} {s s' : Mining} {a : Action} {tx : MineTx}

/-- A step of another task leaves the main loop where it is. -/
private theorem main_other (h : step su s a = some s') (ha : ∀ input, a ≠ .main input) : s'.main = s.main := by
  cases step_sound h with
  | main => exact absurd rfl (ha _)
  | _ => rfl

/-- A turn of the main loop that keeps its transaction, and is not a poll without news. -/
private theorem main_turn {input : MainInput} (h : step su s (.main input) = some s') (htx : s.main.tx? = some tx)
    (htx' : s'.main.tx? = some tx) (hnews : input ≠ .status .pending) : s'.main.stepsLeft < s.main.stepsLeft := by
  simp only [step, stepMain, Option.bind_eq_bind, Option.bind_eq_some_iff, Option.pure_def, Option.some.injEq] at h
  obtain ⟨⟨m, pc, ev⟩, hstep, rfl⟩ := h
  rw [event_main] at htx' ⊢
  simp only at htx' ⊢
  generalize s.main = pc₀ at htx hstep ⊢
  cases pc₀ with
  | send r best i tx₀ attempts =>
    cases input with
    | send ok =>
      cases ok with
      | true =>
        cases hstep
        show 1 < 2 + (maxSendAttempts - attempts)
        omega
      | false =>
        by_cases hmax : maxSendAttempts ≤ attempts + 1
        · simp only [MainPc.step, Bool.false_eq_true, if_false, if_pos hmax, Option.some.injEq, Prod.mk.injEq] at hstep
          obtain ⟨-, rfl, -⟩ := hstep
          cases htx'
        · simp only [MainPc.step, Bool.false_eq_true, if_false, if_neg hmax, Option.some.injEq, Prod.mk.injEq] at hstep
          obtain ⟨-, rfl, -⟩ := hstep
          show 2 + (maxSendAttempts - (attempts + 1)) < 2 + (maxSendAttempts - attempts)
          omega
    | status x => cases x <;> cases hstep
    | _ => cases hstep
  | poll r best i tx₀ =>
    cases input with
    | status x =>
      cases x with
      | pending => exact absurd rfl hnews
      | finalized ok =>
        simp only [MainPc.step] at hstep
        split at hstep
        · cases hstep
          exact Nat.zero_lt_one
        · cases hstep
    | expire =>
      cases hstep
      cases htx'
    | _ => cases hstep
  | stop r best i tx₀ success =>
    cases success with
    | false => cases htx
    | true =>
      cases input with
      | go =>
        cases hstep
        cases htx'
      | status x => cases x <;> cases hstep
      | _ => cases hstep
  | _ => cases htx

/-- A step of another task leaves a payout task where it is. -/
private theorem payout_other {j : ℕ} {t : Round × PayoutPc} (ht : s.payouts[j]? = some t)
    (h : step su s a = some s') (ha : ∀ input, a ≠ .payout j input) : s'.payouts[j]? = some t := by
  cases step_sound h with
  | @main input m pc ev hstep =>
    cases ev with
    | stop id paid => exact (List.getElem?_append_left (List.getElem?_eq_some_iff.1 ht).1).trans ht
    | _ => exact ht
  | @payout k input r pc pc' db msgs ht' hstep =>
    have hjk : k ≠ j := by
      rintro rfl
      exact ha input rfl
    exact (List.getElem?_set_ne hjk).trans ht
  | _ => exact ht

/-- The payout task `j` is that of the transaction, and has not ended. -/
def Paying (s : Mining) (j : ℕ) (tx : MineTx) : Prop :=
  ∃ r pc, s.payouts[j]? = some (r, pc) ∧ r.sig = tx.id ∧ pc ≠ .done

/-- The bound for the steps of the payout task `j`. -/
def stepsLeft (s : Mining) (j : ℕ) : ℕ :=
  match s.payouts[j]? with
  | some (r, pc) => pc.stepsLeft (s.mem.db.challenges.Has r.challenge)
  | none => 0

theorem stepsLeft_of_getElem? {j : ℕ} {r : Round} {pc : PayoutPc} (h : s.payouts[j]? = some (r, pc)) :
    s.stepsLeft j = pc.stepsLeft (s.mem.db.challenges.Has r.challenge) := by
  simp only [stepsLeft, h]

/-- A good turn of a payout task. -/
private theorem payout_turn {j : ℕ} {input : PayoutInput} (h : step su s (.payout j input) = some s')
    (hgood : input.Good su.fmt) : s'.stepsLeft j < s.stepsLeft j := by
  cases step_sound h with
  | payout ht hstep =>
    have hj : j < s.payouts.length := (List.getElem?_eq_some_iff.1 ht).1
    rw [stepsLeft_of_getElem? ht, stepsLeft_of_getElem? (List.getElem?_set_self hj)]
    exact PayoutPc.stepsLeft_lt hstep hgood

/-- A payout task keeps its round, and stays where it is once it has ended. -/
private theorem payout_keeps {j : ℕ} {r : Round} {pc : PayoutPc} (ht : s.payouts[j]? = some (r, pc))
    (h : step su s a = some s') : ∃ pc', s'.payouts[j]? = some (r, pc') ∧ (pc = .done → pc' = .done) := by
  by_cases hown : ∃ input, a = .payout j input
  · obtain ⟨input, rfl⟩ := hown
    cases step_sound h with
    | @payout _ _ r' pc₀ pc' db msgs ht' hstep =>
      cases ht.symm.trans ht'
      refine ⟨pc', List.getElem?_set_self (List.getElem?_eq_some_iff.1 ht).1, ?_⟩
      rintro rfl
      cases input <;> cases hstep
  · exact ⟨pc, payout_other ht h fun input hinput => hown ⟨input, hinput⟩, id⟩

end Mining

/-- From the `n`-th step on, the main loop gets its turns as long as the transaction is its current one, and so does a
payout task of the transaction until it ends; meanwhile finitely many polls are without news, finitely many answers to
`get_transaction` are errors or have no log, and finitely many calls of the task fail. -/
structure RewardServed (s : ℕ → Mining) (a : ℕ → Mining.Action) (n : ℕ) (tx : MineTx) : Prop where
  mainTurns : (∀ k ≥ n, (s k).main.tx? = some tx) → ∀ m ≥ n, ∃ k ≥ m, ∃ input, a k = .main input
  news : (∀ k ≥ n, (s k).main.tx? = some tx) → ∃ N, ∀ k ≥ N, a k ≠ .main (.status .pending)
  taskTurns : ∀ j, ∀ m ≥ n, (∀ k ≥ m, (s k).Paying j tx) → ∀ m' ≥ m, ∃ k ≥ m', ∃ input, a k = .payout j input
  logs : ∀ j, ∀ m ≥ n, (∀ k ≥ m, (s k).Paying j tx) →
    ∃ N, ∀ k ≥ N, ∀ x, a k = .payout j (.answer x) → ∃ logs, x = .ok (some (.some logs))
  calls : ∀ j, ∀ m ≥ n, (∀ k ≥ m, (s k).Paying j tx) →
    ∃ N, ∀ k ≥ N, ∀ o, a k = .payout j (.call o) → o = .executed

section Endless

variable {su : MiningSetup} {s : ℕ → Mining} {a : ℕ → Mining.Action} {tx : MineTx} {n j : ℕ}

/-- The main loop does not stay with a transaction for ever. -/
theorem EndlessMining.leaves (h : EndlessMining su s a) (hserved : RewardServed s a n tx) :
    ∃ m ≥ n, (s m).main.tx? ≠ some tx := by
  refine ends_of_turns (fun k => (s k).main.stepsLeft) hserved.mainTurns fun hcur => ?_
  obtain ⟨N, hnews⟩ := hserved.news hcur
  refine ⟨N, fun k hk hN => ?_⟩
  have hturn : ∀ input, a k = .main input → (s (k + 1)).main.stepsLeft < (s k).main.stepsLeft := by
    intro input hinput
    refine Mining.main_turn (hinput ▸ h.moves k) (hcur k hk) (hcur (k + 1) (Nat.le_succ_of_le hk)) ?_
    rintro rfl
    exact hnews k hN hinput
  refine ⟨?_, fun ⟨input, hinput⟩ => hturn input hinput⟩
  by_cases hmain : ∃ input, a k = .main input
  · obtain ⟨input, hinput⟩ := hmain
    exact Nat.le_of_lt (hturn input hinput)
  · rw [Mining.main_other (h.moves k) fun input hinput => hmain ⟨input, hinput⟩]

/-- The others do not take a payout task back. -/
private theorem EndlessMining.stepsLeft_le (h : EndlessMining su s a) {k : ℕ} (hpay : (s k).Paying j tx)
    (hother : ∀ input, a k ≠ .payout j input) : (s (k + 1)).stepsLeft j ≤ (s k).stepsLeft j := by
  obtain ⟨r, pc, ht, -, -⟩ := hpay
  rw [Mining.stepsLeft_of_getElem? ht, Mining.stepsLeft_of_getElem? (Mining.payout_other ht (h.moves k) hother)]
  refine PayoutPc.stepsLeft_le (fun hfound => ?_) pc
  exact decide_eq_true (h.has k (of_decide_eq_true hfound))

/-- No payout task of the transaction goes on for ever. -/
theorem EndlessMining.pays (h : EndlessMining su s a) (hg : ∀ k, Mining.AnswersUsable su (s k) (a k))
    (hserved : RewardServed s a n tx) {m : ℕ} (hm : n ≤ m) : ∃ k ≥ m, ¬ (s k).Paying j tx := by
  refine ends_of_turns (fun k => (s k).stepsLeft j) (hserved.taskTurns j m hm) fun hpay => ?_
  obtain ⟨N, hlogs⟩ := hserved.logs j m hm hpay
  obtain ⟨N', hcalls⟩ := hserved.calls j m hm hpay
  refine ⟨N + N', fun k hk hN => ?_⟩
  have hturn : ∀ input, a k = .payout j input → (s (k + 1)).stepsLeft j < (s k).stepsLeft j := by
    intro input hinput
    refine Mining.payout_turn (hinput ▸ h.moves k) ⟨fun x hx => ?_, fun o ho => ?_⟩
    · obtain ⟨logs, rfl⟩ := hlogs k (by omega) x (hx ▸ hinput)
      have husable := hg k
      rw [hinput, hx] at husable
      exact ⟨logs, rfl, husable⟩
    · exact hcalls k (by omega) o (ho ▸ hinput)
  refine ⟨?_, fun ⟨input, hinput⟩ => hturn input hinput⟩
  by_cases hown : ∃ input, a k = .payout j input
  · obtain ⟨input, hinput⟩ := hown
    exact Nat.le_of_lt (hturn input hinput)
  · exact h.stepsLeft_le (hpay k hk) fun input hinput => hown ⟨input, hinput⟩

/-- From some step on, a payout task of the transaction has ended. -/
theorem EndlessMining.done (h : EndlessMining su s a) (hg : ∀ k, Mining.AnswersUsable su (s k) (a k))
    (hserved : RewardServed s a n tx) {m : ℕ} (hm : n ≤ m) {r : Round} {pc : PayoutPc}
    (ht : (s m).payouts[j]? = some (r, pc)) (hsig : r.sig = tx.id) :
    ∃ m' ≥ m, ∀ k ≥ m', (s k).payouts[j]? = some (r, .done) := by
  obtain ⟨m', hm', hend⟩ := h.pays (j := j) hg hserved hm
  have hkeeps : ∀ k ≥ m, ∃ pc', (s k).payouts[j]? = some (r, pc') := by
    intro k hk
    induction k, hk using Nat.le_induction with
    | base => exact ⟨pc, ht⟩
    | succ k hk ih =>
      obtain ⟨pc₁, ht₁⟩ := ih
      obtain ⟨pc₂, ht₂, -⟩ := Mining.payout_keeps ht₁ (h.moves k)
      exact ⟨pc₂, ht₂⟩
  refine ⟨m', hm', fun k hk => ?_⟩
  induction k, hk using Nat.le_induction with
  | base =>
    obtain ⟨pc', ht'⟩ := hkeeps m' hm'
    have hdone : pc' = .done := by
      by_contra hne
      exact hend ⟨r, pc', ht', hsig, hne⟩
    rw [ht', hdone]
  | succ k hk ih =>
    obtain ⟨pc', ht', hdone⟩ := Mining.payout_keeps ih (h.moves k)
    rw [ht', hdone rfl]

end Endless

namespace Mining

/-- The message of a transaction, with the snapshot of its round, and no other message of it. -/
def Distributed (s : Mining) (tx : MineTx) : Prop :=
  ∃ m, s.messagesOf tx.id = [m] ∧ s.history.rounds[tx.round]? = some (m.challenge, m.submissions)

/-- A transaction that is finalised without error gets its message, and keeps it. -/
private theorem eventually_distributed {su : MiningSetup} {s : ℕ → Mining} {a : ℕ → Action} (h : EndlessMining su s a)
    (hg : ∀ k, AnswersUsable su (s k) (a k)) (h0 : (s 0).Settled) {n : ℕ} {tx : MineTx}
    (hl : ⟨tx, true⟩ ∈ (s n).chain.landed) (hserved : RewardServed s a n tx) :
    ∃ m ≥ n, ∀ k ≥ m, (s k).Distributed tx := by
  have hsettled : ∀ k, (s k).Settled := by
    intro k
    induction k with
    | zero => exact h0
    | succ k ih => exact ih.step (hg k) (step_sound (h.moves k))
  have hlanded : ∀ k ≥ n, ⟨tx, true⟩ ∈ (s k).chain.landed := by
    intro k hk
    induction k, hk using Nat.le_induction with
    | base => exact hl
    | succ k hk ih => exact (step_sound (h.moves k)).landed ih
  obtain ⟨m, hm, hleft⟩ := h.leaves hserved
  -- the main loop has left the transaction, so that its payout task is there
  obtain ⟨r, hr, hsig⟩ := ((hsettled m).spawned (hlanded m hm)).resolve_left hleft
  obtain ⟨⟨r', pc⟩, ht, rfl⟩ := List.mem_map.1 hr
  obtain ⟨j, hj⟩ := List.mem_iff_getElem?.1 ht
  obtain ⟨m', hm', hdone⟩ := h.done hg hserved hm hj hsig
  refine ⟨m', hm.trans hm', fun k hk => ?_⟩
  exact (hsettled k).messagesOf_done (hlanded k (hm.trans (hm'.trans hk))) (List.mem_of_getElem? (hdone k hk)) hsig

/-- If no transaction that was given up is finalised without error and no answer about one is unusable, then every
transaction that is finalised without error has at most one message, with the snapshot of its round, can always still
get it, and does not belong to a round that the main loop discards.  In every endless run it gets the message, if the
main loop and its payout task get their turns, finitely many polls, answers and calls keep them where they are, and no
other task deletes a row of `challenges`. -/
theorem reward_distributed (su : MiningSetup) (hfmt : ∃ logs, su.fmt.Readable logs) (proof : Proof) (db : Database) :
    (∀ as s', Along (step su) (AnswersUsable su) (start proof db) as → run (step su) (start proof db) as = some s' →
      ∀ tx, ⟨tx, true⟩ ∈ s'.chain.landed →
        (s'.messagesOf tx.id = [] ∨ s'.Distributed tx) ∧
        (∃ s'', Reaches (step su) (AnswersUsable su) s' s'' ∧ s''.Distributed tx) ∧
        ∀ r ops, s'.main = .discard r ops → tx.round ≠ r.index) ∧
    ∀ s a, EndlessMining su s a → s 0 = start proof db → (∀ k, AnswersUsable su (s k) (a k)) →
      ∀ n tx, ⟨tx, true⟩ ∈ (s n).chain.landed → RewardServed s a n tx → ∃ m ≥ n, ∀ k ≥ m, (s k).Distributed tx := by
  refine ⟨fun as s' hg h tx hl => ?_, fun s a h h0 hg n tx hl hserved => ?_⟩
  · have hs : s'.Settled := settled_of_reaches (start_settled proof db) ⟨as, hg, h⟩
    exact ⟨hs.messagesOf_cases hl, can_send hs hl hfmt, fun r ops hpc => hs.discard hl hpc⟩
  · exact eventually_distributed h hg (h0 ▸ start_settled proof db) hl hserved

/-- A round that is paid, and then time goes by for ever. -/
def paidForever : ℕ → Mining := forever (step exampleMiningSetup) .tick paidRound exampleStart

private theorem paidForever_endless :
    EndlessMining exampleMiningSetup paidForever (fun n => paidRound.getD n .tick) ∧
      ∀ k, AnswersUsable exampleMiningSetup (paidForever k) (paidRound.getD k .tick) := by
  have hrun : (run (step exampleMiningSetup) exampleStart paidRound).isSome := by decide +kernel
  have hidle : ∀ s : Mining, (step exampleMiningSetup s .tick).isSome ∧ AnswersUsable exampleMiningSetup s .tick :=
    fun s => ⟨rfl, trivial⟩
  have hnone : ∀ a ∈ paidRound, ∀ db, a ≠ .database db := by
    simp [paidRound, exampleWorld, accept, takeSnapshot, sendTx, seeFinalized]
  refine ⟨⟨forever_moves (fun s => (hidle s).1) hrun, fun n db hn => ?_⟩, forever_along hidle hrun (by decide +kernel)⟩
  rw [List.getD_eq_getElem?_getD] at hn
  rcases hget : paidRound[n]? with _ | a
  · rw [hget] at hn
    cases hn
  · rw [hget] at hn
    exact absurd hn (hnone a (List.mem_of_getElem? hget) db)

/-- After the round, the payout task has ended. -/
private theorem paidForever_done {k : ℕ} (hk : k ≥ paidRound.length) :
    (paidForever k).payouts.map Prod.snd = [.done] := by
  induction k, hk using Nat.le_induction with
  | base => decide +kernel
  | succ k hk ih =>
    have hmove := paidForever_endless.1.moves k
    rw [List.getD_eq_getElem?_getD, List.getElem?_eq_none hk] at hmove
    rw [← Option.some.inj hmove]
    exact ih

private theorem paidForever_served :
    RewardServed paidForever (fun n => paidRound.getD n .tick) 79 ⟨0, 0⟩ := by
  have hleft : ¬ ∀ k ≥ 79, (paidForever k).main.tx? = some ⟨0, 0⟩ := by
    intro hcur
    have hnone : (paidForever paidRound.length).main.tx? = none := by decide +kernel
    rw [hcur paidRound.length (by decide)] at hnone
    cases hnone
  have hended : ∀ j m, ¬ ∀ k ≥ m, (paidForever k).Paying j ⟨0, 0⟩ := by
    intro j m hpay
    obtain ⟨r, pc, ht, -, hne⟩ := hpay (m + paidRound.length) (Nat.le_add_right _ _)
    have hmem : pc ∈ (paidForever (m + paidRound.length)).payouts.map Prod.snd :=
      List.mem_map.2 ⟨_, List.mem_of_getElem? ht, rfl⟩
    rw [paidForever_done (Nat.le_add_left _ _)] at hmem
    exact hne (List.mem_singleton.1 hmem)
  exact ⟨fun h => absurd h hleft, fun h => absurd h hleft, fun j m _ h => absurd h (hended j m),
    fun j m _ h => absurd h (hended j m), fun j m _ h => absurd h (hended j m)⟩

theorem reward_distributed_example :
    (∃ s', run (step exampleMiningSetup) exampleStart paidRound = some s' ∧ s'.Distributed ⟨0, 0⟩) ∧
      ∃ m, ∀ k ≥ m, (paidForever k).Distributed ⟨0, 0⟩ := by
  have hfmt : ∃ logs, exampleMiningSetup.fmt.Readable logs :=
    ⟨["Program return: eore ".toList ++ exampleLog], by decide +kernel⟩
  obtain ⟨hsafe, hlive⟩ := reward_distributed exampleMiningSetup hfmt ⟨filled 1, 0⟩ (Database.single (filled 7) 0)
  constructor
  · obtain ⟨s', h, hl, hlen⟩ : ∃ s', run (step exampleMiningSetup) exampleStart paidRound = some s' ∧
        ⟨⟨0, 0⟩, true⟩ ∈ s'.chain.landed ∧ (s'.messagesOf 0).length = 1 := exists_of_run (by decide +kernel)
    obtain ⟨hm, -, -⟩ := hsafe _ s' (by decide +kernel) h ⟨0, 0⟩ hl
    refine ⟨s', h, hm.resolve_left fun hnil => ?_⟩
    rw [hnil] at hlen
    cases hlen
  · have hl : (⟨⟨0, 0⟩, true⟩ : MinedTx) ∈ (paidForever 79).chain.landed := by decide +kernel
    obtain ⟨m, -, hm⟩ := hlive _ _ paidForever_endless.1 rfl paidForever_endless.2 79 ⟨0, 0⟩ hl paidForever_served
    exact ⟨m, hm⟩

/-- The first send of the transaction fails although it was broadcast and is finalised; after the fourth failure the
main loop discards the round, and no payout task is spawned. -/
theorem reward_lost :
    ∃ s', run (step exampleMiningSetup) exampleStart (exampleWorld ++ accept 0 (exampleBest 1 1) ++
      List.replicate 60 .tick ++ takeSnapshot ++
      [.main (.proofAndConfig none), .main (.blockhash true), .main (.simulate false), .main (.send false),
        .land ⟨0, 0⟩ true] ++ List.replicate 3 (.main (.send false)) ++
      List.replicate 4 (.main (.op .executed)) ++ [.main .go]) = some s' ∧
      ⟨⟨0, 0⟩, true⟩ ∈ s'.chain.landed ∧ s'.main = .top ∧ s'.paid.length = 0 ∧ s'.messages = [] ∧
      s'.mem.epochHashes.submissions.keys = [] :=
  exists_of_run (by decide +kernel)

end Mining

end BitzPool
