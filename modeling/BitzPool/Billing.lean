import BitzPool.Distribution
import BitzPool.Steps

/-!
# Where the messages of mined rewards come from

Every payout task belongs to a transaction that was finalised without error, and carries the snapshot of the round the
transaction was built for; a round has at most one, since the main loop leaves it with the first.  A task sends at most
one message.  So the messages that `pool_mine_success_system` gets belong to distinct rounds, whatever the main loop gave
up and whatever was finalised later (`Billed.messages`).
-/

namespace BitzPool

open Transition Update

/-- The transaction of an attempt, with its round. -/
def MainPc.made? : MainPc → Option (MainRound × MineTx)
  | .simulate r _ _ tx | .send r _ _ tx _ | .poll r _ _ tx | .stop r _ _ tx _ => some (r, tx)
  | _ => none

theorem MainPc.trying?_of_made? {pc : MainPc} {x : MainRound × MineTx} (h : pc.made? = some x) :
    pc.trying? = some x.1 := by
  unfold made? at h
  split at h <;> cases h <;> rfl

theorem MainPc.made?_of_preparing? {pc : MainPc} {r : MainRound} (h : pc.preparing? = some r) : pc.made? = none := by
  cases pc <;> first | rfl | cases h

section

variable {dx : Drillx} {cfg : RowId} {rounds : ℕ} {m m' : MainMemory} {i : MainInput} {pc pc' : MainPc} {ev : MainEvent}

/-- A transaction is built for the round of its attempt. -/
theorem MainStep.made (h : MainStep dx cfg rounds m i pc m' pc' ev)
    (hpc : ∀ x, pc.made? = some x → x.2.round = x.1.index) {x : MainRound × MineTx} (hx : pc'.made? = some x) :
    x.2.round = x.1.index := by
  have htrying : pc'.trying? = some x.1 := MainPc.trying?_of_made? hx
  cases h with
  | build =>
    cases hx
    rfl
  | wait _ hw =>
    rw [MainPc.trying?_of_waiting hw] at htrying
    cases htrying
  | check _ hm =>
    rw [MainPc.trying?_of_mined? hm] at htrying
    cases htrying
  | prepare _ hp =>
    rw [MainPc.made?_of_preparing? hp] at hx
    cases hx
  | valid | sent | resend | pending | finalized | expire =>
    cases hx
    exact hpc _ rfl
  | _ => cases hx

/-- What the main loop has seen was finalised. -/
theorem MainStep.seen (h : MainStep dx cfg rounds m i pc m' pc' ev) {x : MainRound × MineTx} (hx : pc'.seen? = some x) :
    ⟨x.2, true⟩ ∈ m.chain.landed := by
  have hwork : pc'.work? = some x := MainPc.work?_of_seen? hx
  have htrying : pc'.trying? = some x.1 := MainPc.trying?_of_work? hwork
  cases h with
  | @finalized r best k tx ok hl =>
    cases ok with
    | true =>
      cases hx
      exact hl
    | false => cases hx
  | wait _ hw =>
    rw [MainPc.trying?_of_waiting hw] at htrying
    cases htrying
  | check _ hm =>
    rw [MainPc.trying?_of_mined? hm] at htrying
    cases htrying
  | prepare _ hp =>
    have htx : pc'.tx? = some x.2 := by rw [MainPc.tx?, hwork]; rfl
    rw [MainPc.tx?_of_preparing? hp] at htx
    cases htx
  | _ => cases hx

/-- The main loop tries a round that it tried before, or has just taken. -/
theorem MainStep.trying (h : MainStep dx cfg rounds m i pc m' pc' ev) {r : MainRound} (hr : pc'.trying? = some r) :
    pc.trying? = some r ∨ ev = .snapshot r ∧ r.index = rounds := by
  cases h with
  | wait _ hw =>
    rw [MainPc.trying?_of_waiting hw] at hr
    cases hr
  | check _ hm =>
    rw [MainPc.trying?_of_mined? hm] at hr
    cases hr
  | prepare hp hp' =>
    rw [MainPc.trying?_of_preparing? hp'] at hr
    cases hr
    exact Or.inl (MainPc.trying?_of_preparing? hp)
  | snapshot he =>
    cases hr
    exact Or.inr ⟨rfl, by rw [he]⟩
  | close | success | enterRpc | upToDate | enterWs | enterOp | entered | discarded => cases hr
  | _ => exact Or.inl hr

end

theorem PayoutPc.ne_done_of_step {fmt : LogFormat} {cfg : Config} {r : Round} {db db' : Database} {i : PayoutInput}
    {pc pc' : PayoutPc} {msgs : List MessageInternalMineSuccess} (h : pc.step fmt cfg r db i = some (db', pc', msgs)) :
    pc ≠ .done := by
  rintro rfl
  cases i <;> cases h

namespace Mining

/-- The transaction pays for the round: it was finalised, and its round has the snapshot. -/
structure Bills (s : Mining) (tx : MineTx) (r : Round) : Prop where
  landed : ⟨tx, true⟩ ∈ s.chain.landed
  sig : tx.id = r.sig
  round : s.history.rounds[tx.round]? = some (r.challenge, r.submissions)

/-- The invariant of the main loop, its payout tasks and their messages. -/
structure Billed (s : Mining) : Prop where
  round : ∀ r, s.main.round? = some r → s.history.rounds[r.index]? = some (r.old.challenge, r.submissions)
  made : ∀ x, s.main.made? = some x → x.2.round = x.1.index
  seen : ∀ x, s.main.seen? = some x → ⟨x.2, true⟩ ∈ s.chain.landed
  paid : ∃ bills : List (MineTx × Round), bills.map Prod.snd = s.paid ∧ (∀ b ∈ bills, s.Bills b.1 b.2) ∧
    bills.Pairwise (fun b b' => b.1.round < b'.1.round) ∧
    ∀ b ∈ bills, ∀ r, s.main.trying? = some r → b.1.round < r.index
  unsent : ∀ t ∈ s.payouts, t.2 ≠ .done → ∀ x ∈ s.messages, x.1 ≠ t.1.sig
  sent : ∀ x ∈ s.messages, ∃ r ∈ s.paid, x.1 = r.sig ∧ ∃ full id, x.2 = r.message full id
  once : (s.messages.map Prod.fst).Nodup

variable {su : MiningSetup} {s s' : Mining} {a : Action}

/-- Messages are not taken back. -/
theorem Step.messages (h : Step su s a s') : s.messages <+: s'.messages := by
  cases h with
  | main => exact prefix_of_eq (by rw [event_messages])
  | payout => exact List.prefix_append _ _
  | _ => exact List.prefix_rfl

theorem start_billed (proof : Proof) (db : Database) : (start proof db).Billed where
  round r h := by cases h
  made x h := by cases h
  seen x h := by cases h
  paid := ⟨[], rfl, by simp, List.Pairwise.nil, by simp⟩
  unsent t h := by cases h
  sent x h := by cases h
  once := List.nodup_nil

theorem Bills.mono {tx : MineTx} {r : Round} (h : s.Bills tx r) (hl : ∀ l ∈ s.chain.landed, l ∈ s'.chain.landed)
    (hr : ∀ {i : ℕ} {x : Challenge × Submissions}, s.history.rounds[i]? = some x → s'.history.rounds[i]? = some x) :
    s'.Bills tx r :=
  ⟨hl _ h.landed, h.sig, hr h.round⟩

/-- Transactions that pay for the same number are the same. -/
theorem Bills.inj {tx tx' : MineTx} {r r' : Round} (h : s.Bills tx r) (h' : s.Bills tx' r') (hsig : r.sig = r'.sig) :
    tx = tx' := by
  have hl := Broadcast.Chain.landed_inj h.landed h'.landed (h.sig.trans (hsig.trans h'.sig.symm))
  exact congrArg Broadcast.Landed.tx hl

/-- The payout tasks have distinct transactions. -/
theorem Billed.distinct (hs : s.Billed) : (s.paid.map Round.sig).Nodup := by
  obtain ⟨bills, hpaid, hbills, hrounds, -⟩ := hs.paid
  rw [← hpaid, List.map_map]
  refine List.pairwise_map.2 (hrounds.imp_of_mem fun {b b'} hb hb' hlt hsig => ?_)
  have htx : b.1 = b'.1 := (hbills b hb).inj (hbills b' hb') hsig
  rw [htx] at hlt
  exact Nat.lt_irrefl _ hlt

/-- Steps of the other tasks. -/
private theorem Billed.frame (hs : s.Billed) (hmain : s'.main = s.main) (hlanded : ∀ l ∈ s.chain.landed, l ∈ s'.chain.landed)
    (hrounds : s'.history.rounds = s.history.rounds) (hpayouts : s'.payouts = s.payouts)
    (hmessages : s'.messages = s.messages) : s'.Billed := by
  obtain ⟨bills, hpaid, hbills, hlt, hbefore⟩ := hs.paid
  have hpaid' : s'.paid = s.paid := congrArg (List.map Prod.fst) hpayouts
  refine ⟨?_, ?_, ?_, ⟨bills, ?_, ?_, hlt, ?_⟩, ?_, ?_, ?_⟩
  · rw [hmain, hrounds]
    exact hs.round
  · rw [hmain]
    exact hs.made
  · intro x hx
    rw [hmain] at hx
    exact hlanded _ (hs.seen x hx)
  · rw [hpaid', hpaid]
  · intro b hb
    exact (hbills b hb).mono hlanded (fun h => by rw [hrounds]; exact h)
  · rw [hmain]
    exact hbefore
  · rw [hpayouts, hmessages]
    exact hs.unsent
  · rw [hmessages, hpaid']
    exact hs.sent
  · rw [hmessages]
    exact hs.once

section Main

variable {input : MainInput} {m : MainMemory} {pc : MainPc} {ev : MainEvent}

/-- The server after a step of the main loop. -/
private def afterMain (s : Mining) (m : MainMemory) (pc : MainPc) (ev : MainEvent) : Mining :=
  { s with mem := m.mem, chain := m.chain, main := pc }.event s.mem ev

private theorem afterMain_rounds {i : ℕ} {x : Challenge × Submissions} (h : s.history.rounds[i]? = some x) :
    (s.afterMain m pc ev).history.rounds[i]? = some x := by
  rw [afterMain, event_rounds]
  exact ev.rounds_getElem? h

private theorem round_mainStep (hs : s.Billed)
    (h : MainStep su.drillx su.config.poolId s.history.rounds.length ⟨s.mem, s.chain⟩ input s.main m pc ev) {r : MainRound}
    (hr : pc.round? = some r) :
    (s.afterMain m pc ev).history.rounds[r.index]? = some (r.old.challenge, r.submissions) := by
  rcases h.round? hr with hold | rfl
  · exact afterMain_rounds (hs.round r hold)
  · generalize s.main = pc₀ at h
    cases h with
    | snapshot he =>
      show (s.history.rounds ++ [(r.old.challenge, r.submissions)])[r.index]? = _
      rw [show r.index = s.history.rounds.length by rw [he], List.getElem?_concat_length]

/-- The main loop goes on without a payout task. -/
private theorem paid_goOn (hs : s.Billed)
    (h : MainStep su.drillx su.config.poolId s.history.rounds.length ⟨s.mem, s.chain⟩ input s.main m pc ev) :
    ∃ bills : List (MineTx × Round), bills.map Prod.snd = s.paid ∧ (∀ b ∈ bills, (s.afterMain m pc ev).Bills b.1 b.2) ∧
      bills.Pairwise (fun b b' => b.1.round < b'.1.round) ∧ ∀ b ∈ bills, ∀ r, pc.trying? = some r → b.1.round < r.index := by
  obtain ⟨bills, hpaid, hbills, hlt, hbefore⟩ := hs.paid
  refine ⟨bills, hpaid, fun b hb => ?_, hlt, fun b hb r hr => ?_⟩
  · refine (hbills b hb).mono ?_ afterMain_rounds
    rw [afterMain, event_chain, show m.chain.landed = s.chain.landed from h.landed]
    exact fun l hl => hl
  · rcases h.trying hr with hold | ⟨-, hindex⟩
    · exact hbefore b hb r hold
    · rw [hindex]
      exact (List.getElem?_eq_some_iff.1 (hbills b hb).round).1

/-- The round whose transaction was seen finalised has no payout task yet. -/
private theorem unpaid (su : MiningSetup) (hs : s.Billed) {r : MainRound} {best : Solution} {k : ℕ} {tx : MineTx}
    (hpc : s.main = .stop r best k tx true) : s.Bills tx (r.payout su.drillx best tx) ∧ ∀ r' ∈ s.paid, r'.sig ≠ tx.id := by
  have hindex : tx.round = r.index := hs.made (r, tx) (by rw [hpc]; rfl)
  have hround : s.history.rounds[tx.round]? = some (r.old.challenge, r.submissions) := by
    rw [hindex]
    exact hs.round r (by rw [hpc]; rfl)
  have hbill : s.Bills tx (r.payout su.drillx best tx) := ⟨hs.seen (r, tx) (by rw [hpc]; rfl), rfl, hround⟩
  refine ⟨hbill, fun r' hr' hsig => ?_⟩
  obtain ⟨bills, hpaid, hbills, -, hbefore⟩ := hs.paid
  rw [← hpaid] at hr'
  obtain ⟨b, hb, rfl⟩ := List.mem_map.1 hr'
  have htx : b.1 = tx := (hbills b hb).inj hbill hsig
  have hlt : b.1.round < r.index := hbefore b hb r (by rw [hpc]; rfl)
  rw [htx, hindex] at hlt
  exact Nat.lt_irrefl _ hlt

/-- The main loop spawns the payout task of its round. -/
private theorem paid_spawn (su : MiningSetup) (hs : s.Billed) {r : MainRound} {best : Solution} {k : ℕ} {tx : MineTx}
    (hpc : s.main = .stop r best k tx true) :
    ∃ bills : List (MineTx × Round), bills.map Prod.snd = s.paid ++ [r.payout su.drillx best tx] ∧
      (∀ b ∈ bills, s.Bills b.1 b.2) ∧ bills.Pairwise fun b b' => b.1.round < b'.1.round := by
  obtain ⟨bills, hpaid, hbills, hlt, hbefore⟩ := hs.paid
  refine ⟨bills ++ [(tx, r.payout su.drillx best tx)], ?_, fun b hb => ?_, ?_⟩
  · rw [List.map_append, hpaid]
    rfl
  · rcases List.mem_append.1 hb with hb | hb
    · exact hbills b hb
    · rw [List.mem_singleton.1 hb]
      exact (unpaid su hs hpc).1
  · refine List.pairwise_append.2 ⟨hlt, List.pairwise_singleton _ _, fun b hb b' hb' => ?_⟩
    rw [List.mem_singleton.1 hb', show tx.round = r.index from hs.made (r, tx) (by rw [hpc]; rfl)]
    exact hbefore b hb r (by rw [hpc]; rfl)

private theorem payouts_afterMain
    (h : MainStep su.drillx su.config.poolId s.history.rounds.length ⟨s.mem, s.chain⟩ input s.main m pc ev) :
    (s.afterMain m pc ev).payouts = s.payouts ∨ ∃ r best k tx, s.main = .stop r best k tx true ∧ pc = .readProof r ∧
      (s.afterMain m pc ev).payouts = s.payouts ++ [(r.payout su.drillx best tx, .getTransaction)] := by
  rcases h.spawn_cases with hno | ⟨r, best, k, tx, hpc, rfl, rfl, rfl⟩
  · exact Or.inl (by rw [afterMain, event_payouts hno])
  · exact Or.inr ⟨r, best, k, tx, hpc, rfl, rfl⟩

theorem Billed.mainStep (hs : s.Billed)
    (h : MainStep su.drillx su.config.poolId s.history.rounds.length ⟨s.mem, s.chain⟩ input s.main m pc ev) :
    (s.afterMain m pc ev).Billed := by
  have hlanded : ∀ l ∈ s.chain.landed, l ∈ (s.afterMain m pc ev).chain.landed := by
    rw [afterMain, event_chain, show m.chain.landed = s.chain.landed from h.landed]
    exact fun l hl => hl
  have hmain : (s.afterMain m pc ev).main = pc := by rw [afterMain, event_main]
  have hmessages : (s.afterMain m pc ev).messages = s.messages := by rw [afterMain, event_messages]
  have hspawned := payouts_afterMain h
  refine ⟨fun r hr => ?_, fun x hx => ?_, fun x hx => ?_, ?_, ?_, ?_, ?_⟩
  · rw [hmain] at hr
    exact round_mainStep hs h hr
  · rw [hmain] at hx
    exact h.made hs.made hx
  · rw [hmain] at hx
    exact hlanded _ (h.seen hx)
  · rw [hmain]
    rcases hspawned with hsame | ⟨r, best, k, tx, hpc, rfl, hnew⟩
    · obtain ⟨bills, hpaid, hbills, hlt, hbefore⟩ := paid_goOn hs h
      exact ⟨bills, hpaid.trans (congrArg (List.map Prod.fst) hsame).symm, hbills, hlt, hbefore⟩
    · obtain ⟨bills, hpaid, hbills, hlt⟩ := paid_spawn su hs hpc
      refine ⟨bills, ?_, fun b hb => (hbills b hb).mono hlanded afterMain_rounds, hlt, fun b hb r' hr' => by cases hr'⟩
      rw [hpaid, Mining.paid, Mining.paid, hnew, List.map_append]
      rfl
  · rw [hmessages]
    rcases hspawned with hsame | ⟨r, best, k, tx, hpc, rfl, hnew⟩
    · rw [hsame]
      exact hs.unsent
    · rw [hnew]
      intro t ht hpc' x hx
      rcases List.mem_append.1 ht with ht | ht
      · exact hs.unsent t ht hpc' x hx
      · obtain ⟨r', hr', hsig, -⟩ := hs.sent x hx
        rw [List.mem_singleton.1 ht, hsig]
        exact (unpaid su hs hpc).2 r' hr'
  · rw [hmessages]
    intro x hx
    obtain ⟨r', hr', hsent⟩ := hs.sent x hx
    refine ⟨r', ?_, hsent⟩
    rcases hspawned with hsame | ⟨r, best, k, tx, hpc, rfl, hnew⟩
    · rw [Mining.paid, hsame]
      exact hr'
    · rw [Mining.paid, hnew, List.map_append]
      exact List.mem_append_left _ hr'
  · rw [hmessages]
    exact hs.once

end Main

/-- A step of a payout task, which may be the message of its round. -/
theorem Billed.payoutStep (hs : s.Billed) {k : ℕ} {input : PayoutInput} {r : Round} {pc pc' : PayoutPc} {db : Database}
    {msgs : List MessageInternalMineSuccess} (hk : s.payouts[k]? = some (r, pc))
    (h : pc.step su.fmt su.config r s.mem.db input = some (db, pc', msgs)) :
    Billed { s with
      mem.db := db
      payouts := s.payouts.set k (r, pc')
      messages := s.messages ++ msgs.map fun msg => (r.sig, msg) } := by
  have hr : r ∈ s.paid := List.mem_map.2 ⟨_, List.mem_of_getElem? hk, rfl⟩
  have hpaid : (s.payouts.set k (r, pc')).map Prod.fst = s.paid := map_set_of_eq hk rfl
  have hne : pc ≠ .done := PayoutPc.ne_done_of_step h
  -- the other tasks belong to other transactions
  have hother : ∀ {j : ℕ} {t : Round × PayoutPc}, j ≠ k → s.payouts[j]? = some t → r.sig ≠ t.1.sig := by
    intro j t hjk hj he
    have hsig : ∀ {i : ℕ} {t : Round × PayoutPc}, s.payouts[i]? = some t → (s.paid.map Round.sig)[i]? = some t.1.sig := by
      intro i t hi
      simp [Mining.paid, hi]
    have hlt := (List.getElem?_eq_some_iff.1 (hsig hj)).1
    exact hjk ((List.getElem?_inj hlt hs.distinct).1 ((hsig hj).trans (he ▸ (hsig hk).symm)))
  have hmsgs : msgs = [] ∨ pc' = .done ∧ ∃ full id, msgs = [r.message full id] := by
    cases PayoutPc.step_sound h with
    | send => exact Or.inr ⟨rfl, _, _, rfl⟩
    | _ => exact Or.inl rfl
  have hsent : ∀ x ∈ s.messages ++ msgs.map (fun msg => (r.sig, msg)), x ∈ s.messages ∨
      pc' = .done ∧ ∃ full id, x = (r.sig, r.message full id) := by
    intro x hx
    rcases List.mem_append.1 hx with hx | hx
    · exact Or.inl hx
    · obtain ⟨msg, hmsg, rfl⟩ := List.mem_map.1 hx
      rcases hmsgs with rfl | ⟨hdone, full, id, rfl⟩
      · cases hmsg
      · rw [List.mem_singleton.1 hmsg]
        exact Or.inr ⟨hdone, full, id, rfl⟩
  refine ⟨hs.round, hs.made, hs.seen, ?_, fun t ht hpc x hx => ?_, fun x hx => ?_, ?_⟩
  · obtain ⟨bills, hbills, hof, hlt, hbefore⟩ := hs.paid
    exact ⟨bills, hbills.trans hpaid.symm, fun b hb => (hof b hb).mono (fun l hl => hl) (fun h => h), hlt, hbefore⟩
  · obtain ⟨j, hj⟩ := List.mem_iff_getElem?.1 ht
    rcases getElem?_set_cases hj with ⟨-, rfl⟩ | ⟨hjk, hj⟩
    · rcases hsent x hx with hx | ⟨hdone, -⟩
      · exact hs.unsent _ (List.mem_of_getElem? hk) hne x hx
      · exact absurd hdone hpc
    · rcases hsent x hx with hx | ⟨-, full, id, rfl⟩
      · exact hs.unsent t (List.mem_of_getElem? hj) hpc x hx
      · exact hother hjk hj
  · show ∃ r' ∈ (s.payouts.set k (r, pc')).map Prod.fst, _
    rw [hpaid]
    rcases hsent x hx with hx | ⟨-, full, id, rfl⟩
    · exact hs.sent x hx
    · exact ⟨r, hr, rfl, full, id, rfl⟩
  · show ((s.messages ++ msgs.map fun msg => (r.sig, msg)).map Prod.fst).Nodup
    rcases hmsgs with rfl | ⟨-, full, id, rfl⟩
    · simpa using hs.once
    · rw [List.map_append, List.nodup_append]
      refine ⟨hs.once, List.nodup_singleton _, ?_⟩
      rintro _ hsig _ hsig' rfl
      obtain ⟨x, hx, rfl⟩ := List.mem_map.1 hsig
      exact hs.unsent _ (List.mem_of_getElem? hk) hne x hx (List.mem_singleton.1 hsig')

theorem Billed.step (hs : s.Billed) (h : Step su s a s') : s'.Billed := by
  have same : ∀ l ∈ s.chain.landed, l ∈ s.chain.landed := fun l hl => hl
  cases h with
  | main h => exact hs.mainStep h
  | payout hk h => exact hs.payoutStep hk h
  | @watcher k input w m pc op hw h =>
    refine hs.frame rfl same ?_ rfl rfl
    cases op with
    | none => rfl
    | some op => exact History.exec_rounds ..
  | handler => exact hs.frame rfl same (History.accept_rounds ..) rfl rfl
  | land h =>
    refine hs.frame rfl (fun l hl => ?_) rfl rfl rfl
    rw [(Broadcast.Chain.land?_eq_some h).2.2.2.2]
    exact List.mem_cons_of_mem _ hl
  | _ => exact hs.frame rfl same rfl rfl rfl

/-- A choice for each element of a list. -/
private theorem exists_choices {α β : Type} {P : β → α → Prop} {l : List α} (h : ∀ x ∈ l, ∃ y, P y x) :
    ∃ bs : List (β × α), bs.map Prod.snd = l ∧ ∀ b ∈ bs, P b.1 b.2 := by
  induction l with
  | nil => exact ⟨[], rfl, by simp⟩
  | cons x l ih =>
    obtain ⟨y, hy⟩ := h x List.mem_cons_self
    obtain ⟨bs, hbs, hP⟩ := ih fun x' hx' => h x' (List.mem_cons_of_mem _ hx')
    exact ⟨(y, x) :: bs, by rw [List.map_cons, hbs], List.forall_mem_cons.2 ⟨hy, hP⟩⟩

/-- Every message has a transaction that was finalised, with the snapshot of its round; and no two messages have the same
round. -/
theorem Billed.messages (hs : s.Billed) : ∃ bills : List (MineTx × (ℕ × MessageInternalMineSuccess)),
    bills.map Prod.snd = s.messages ∧ (bills.map fun b => b.1.round).Nodup ∧
      ∀ b ∈ bills, ⟨b.1, true⟩ ∈ s.chain.landed ∧ b.1.id = b.2.1 ∧
        s.history.rounds[b.1.round]? = some (b.2.2.challenge, b.2.2.submissions) := by
  obtain ⟨bills, hpaid, hbills, hlt, -⟩ := hs.paid
  have hfrom : ∀ x ∈ s.messages, ∃ tx, ∃ r, (tx, r) ∈ bills ∧ x.1 = r.sig ∧ x.2.challenge = r.challenge ∧
      x.2.submissions = r.submissions := by
    intro x hx
    obtain ⟨r, hr, hsig, full, id, hmsg⟩ := hs.sent x hx
    rw [← hpaid] at hr
    obtain ⟨b, hb, rfl⟩ := List.mem_map.1 hr
    exact ⟨b.1, b.2, hb, hsig, by rw [hmsg]; rfl, by rw [hmsg]; rfl⟩
  obtain ⟨bs, hbs, hof⟩ := exists_choices hfrom
  have hrounds : (bills.map fun b => b.1.round).Nodup :=
    List.pairwise_map.2 (hlt.imp fun h he => by rw [he] at h; exact Nat.lt_irrefl _ h)
  have honce : (bs.map fun b => b.2.1).Nodup := by
    have hmap : bs.map (fun b => b.2.1) = s.messages.map Prod.fst := by rw [← hbs, List.map_map]; rfl
    rw [hmap]
    exact hs.once
  refine ⟨bs, hbs, ?_, fun b hb => ?_⟩
  · refine List.pairwise_map.2 ((List.pairwise_map.1 honce).imp_of_mem fun {b b'} hb hb' hne he => hne ?_)
    obtain ⟨r, hr, hsig, -⟩ := hof b hb
    obtain ⟨r', hr', hsig', -⟩ := hof b' hb'
    have hsame := List.inj_on_of_nodup_map hrounds hr hr' he
    rw [hsig, hsig', (Prod.mk.inj hsame).2]
  · obtain ⟨r, hr, hsig, hchallenge, hsubs⟩ := hof b hb
    have hbill : s.Bills b.1 r := hbills _ hr
    refine ⟨hbill.landed, hbill.sig.trans hsig.symm, ?_⟩
    rw [hchallenge, hsubs]
    exact hbill.round

/-- In every run, however many transactions are sent for a round and finalised: every message belongs to a transaction
that was finalised without error, for whose round the snapshot in the message was taken; and no two messages belong to one
round. -/
theorem rounds_billed_once (su : MiningSetup) (proof : Proof) (db : Database) {s : Mining} {as : List Action}
    (h : run (step su) (start proof db) as = some s) : ∃ bills : List (MineTx × (ℕ × MessageInternalMineSuccess)),
      bills.map Prod.snd = s.messages ∧ (bills.map fun b => b.1.round).Nodup ∧
        ∀ b ∈ bills, ⟨b.1, true⟩ ∈ s.chain.landed ∧ b.1.id = b.2.1 ∧
          s.history.rounds[b.1.round]? = some (b.2.2.challenge, b.2.2.submissions) := by
  have hs : s.Billed := run_invariant' (fun hs hstep => hs.step (step_sound hstep)) (start_billed proof db) h
  exact hs.messages

/-- Two transactions of the first round are finalised, the one that was given up and the one sent after it; the main
loop enters the epoch of the next challenge, and a second round follows. -/
def twoRounds : List Action :=
  exampleWorld ++ accept 0 (exampleBest 1 1) ++ List.replicate 60 .tick ++ takeSnapshot ++ sendTx ++
    [.main .expire, .main .go] ++ sendTx ++ [.land ⟨0, 0⟩ true, .notify ⟨filled 2, 60⟩, .track] ++
    seeFinalized ⟨1, 0⟩ ++ [.payout 0 (.answer exampleAnswer)] ++ List.replicate 4 (.payout 0 (.call .executed)) ++
    [.payout 0 .send] ++ List.replicate 2 (.main .go) ++ List.replicate 5 (.main (.op .executed)) ++ [.main .go] ++
    exampleWorld ++ accept 1 (exampleBest 2 2) ++ List.replicate 60 .tick ++ takeSnapshot ++ sendTx ++
    seeFinalized ⟨2, 1⟩ ++ [.payout 1 (.answer exampleAnswer)] ++ List.replicate 2 (.payout 1 (.call .executed)) ++
    [.payout 1 .send]

theorem rounds_billed_once_example :
    ∃ s, run (step exampleMiningSetup) exampleStart twoRounds = some s ∧
      s.chain.landed = [⟨⟨2, 1⟩, true⟩, ⟨⟨1, 0⟩, true⟩, ⟨⟨0, 0⟩, true⟩] ∧
      ∃ b b' : MineTx × (ℕ × MessageInternalMineSuccess), s.messages = [b.2, b'.2] ∧ b.1.round ≠ b'.1.round := by
  have hrun : ∃ s, run (step exampleMiningSetup) exampleStart twoRounds = some s ∧ s.messages.length = 2 ∧
      s.chain.landed = [⟨⟨2, 1⟩, true⟩, ⟨⟨1, 0⟩, true⟩, ⟨⟨0, 0⟩, true⟩] := exists_of_run (by decide +kernel)
  obtain ⟨s, h, hlen, hlanded⟩ := hrun
  obtain ⟨bills, hbills, hnodup, -⟩ := rounds_billed_once exampleMiningSetup _ _ h
  rw [← hbills, List.length_map] at hlen
  obtain ⟨b, b', rfl⟩ := List.length_eq_two.1 hlen
  have hne : b.1.round ≠ b'.1.round := by simpa using hnodup
  exact ⟨s, h, hlanded, b, b', hbills.symm, hne⟩

end Mining

end BitzPool
