import BitzPool.Lib.Run
import BitzPool.Payout

/-!
# The commission of a mined reward

The payout task adds the two rewards of the event with `checked_add` and takes five hundredths of the sum with a plain
product.  In a release build the product wraps past `u64`, so the commission is exact up to a reward of
3689348814741910323 and too small above it.  It never exceeds the reward, so the subtraction in
`pool_mine_success_system` does not underflow and nothing is lost between the two parts (`commission_exact_iff`).
-/

namespace BitzPool

open Transition

/-- The commission of a message is the floor of five hundredths of the event's rewards, it can be subtracted from the
reward, and together with the rest it is the event's rewards. -/
structure CommissionExact (event : MineEvent) (msg : MessageInternalMineSuccess) : Prop where
  commission : msg.commissions.toNat = 5 * (event.netBaseReward.toNat + event.netMinerBoostReward.toNat) / 100
  noUnderflow : msg.commissions ≤ msg.rewards
  total : msg.commissions.toNat + msg.totalRewards.toNat = event.netBaseReward.toNat + event.netMinerBoostReward.toNat

instance (event : MineEvent) (msg : MessageInternalMineSuccess) : Decidable (CommissionExact event msg) :=
  decidable_of_iff
    (msg.commissions.toNat = 5 * (event.netBaseReward.toNat + event.netMinerBoostReward.toNat) / 100 ∧
      msg.commissions ≤ msg.rewards ∧
      msg.commissions.toNat + msg.totalRewards.toNat = event.netBaseReward.toNat + event.netMinerBoostReward.toNat)
    ⟨fun ⟨h1, h2, h3⟩ => ⟨h1, h2, h3⟩, fun h => ⟨h.commission, h.noUnderflow, h.total⟩⟩

/-- The task and what it has sent; the database it finds at a step is what the other tasks have made of it. -/
def PayoutPc.proceed (fmt : LogFormat) (cfg : Config) (r : Round) (x : PayoutPc × List MessageInternalMineSuccess)
    (i : Database × PayoutInput) : Option (PayoutPc × List MessageInternalMineSuccess) :=
  (x.1.step fmt cfg r i.1 i.2).map fun y => (y.2.1, x.2 ++ y.2.2)

/-- The reward a task has read, until it ends. -/
def PayoutPc.full? : PayoutPc → Option UInt64
  | .getChallenge full | .addChallenge full | .verifyChallenge full | .updateRewards full _ | .send full _ => some full
  | .getTransaction | .done | .dead => none

/-- The task has the reward `full` or has ended, and what it has sent is for this reward. -/
structure Pays (r : Round) (full : UInt64) (x : PayoutPc × List MessageInternalMineSuccess) : Prop where
  task : x.1.full? = some full ∨ x.1 = .done
  sent : ∀ msg ∈ x.2, ∃ id, msg = r.message full id

theorem commissionOf_toNat (full : UInt64) : (commissionOf full).toNat = full.toNat * 5 % 2 ^ 64 / 100 := by
  rw [commissionOf, UInt64.toNat_div, UInt64.toNat_mul]
  rfl

/-- The product wraps exactly when the commission is not the exact one: a wrap takes away far more than 100. -/
theorem commissionOf_eq_iff (full : UInt64) :
    (commissionOf full).toNat = 5 * full.toNat / 100 ↔ full.toNat ≤ 3689348814741910323 := by
  have hlt := full.toNat_lt
  rw [commissionOf_toNat]
  constructor
  · intro h
    by_contra hgt
    have hwrap := Nat.div_add_mod (full.toNat * 5) (2 ^ 64)
    have hpos : 1 ≤ full.toNat * 5 / 2 ^ 64 := by omega
    omega
  · intro hle
    rw [Nat.mod_eq_of_lt (by omega), Nat.mul_comm]

/-- Whatever the calls answer, the task keeps the reward it has read, and sends its messages for this reward. -/
theorem PayoutPc.step_full {fmt : LogFormat} {cfg : Config} {r : Round} {db db' : Database} {i : PayoutInput}
    {pc pc' : PayoutPc} {msgs : List MessageInternalMineSuccess} {full : UInt64} (hfull : pc.full? = some full)
    (h : pc.step fmt cfg r db i = some (db', pc', msgs)) :
    (pc'.full? = some full ∨ pc' = .done) ∧ ∀ msg ∈ msgs, ∃ id, msg = r.message full id := by
  unfold PayoutPc.step at h
  split at h
  · cases hfull
  · split at h <;> cases h <;> exact ⟨Or.inl hfull, by simp⟩
  · split at h <;> cases h <;> exact ⟨Or.inl hfull, by simp⟩
  · split at h <;> cases h <;> exact ⟨Or.inl hfull, by simp⟩
  · split at h <;> cases h <;> exact ⟨Or.inl hfull, by simp⟩
  · next full' id =>
    cases hfull
    cases h
    refine ⟨Or.inr rfl, fun msg hmsg => ⟨id, ?_⟩⟩
    exact List.mem_singleton.1 hmsg
  · cases h

/-- A task that has ended makes no step. -/
theorem PayoutPc.step_done (fmt : LogFormat) (cfg : Config) (r : Round) (db : Database) (i : PayoutInput) :
    PayoutPc.done.step fmt cfg r db i = none := by
  cases i <;> rfl

theorem Pays.step {fmt : LogFormat} {cfg : Config} {r : Round} {full : UInt64}
    {x x' : PayoutPc × List MessageInternalMineSuccess} {i : Database × PayoutInput} (hx : Pays r full x)
    (h : PayoutPc.proceed fmt cfg r x i = some x') : Pays r full x' := by
  obtain ⟨⟨db', pc', msgs⟩, hstep, rfl⟩ := Option.map_eq_some_iff.1 h
  have hfull : x.1.full? = some full := by
    apply hx.task.resolve_right
    intro hdone
    rw [hdone, PayoutPc.step_done] at hstep
    cases hstep
  obtain ⟨htask, hmsgs⟩ := PayoutPc.step_full hfull hstep
  refine ⟨htask, fun msg hmsg => ?_⟩
  rcases List.mem_append.1 hmsg with hmsg | hmsg
  · exact hx.sent msg hmsg
  · exact hmsgs msg hmsg

/-- For every event whose sum exists: the commission is exact up to a reward of 3689348814741910323 and at no other; it
can always be subtracted, and nothing is lost; and every message that the task sends after reading the event, whatever
its calls answer, carries these amounts. -/
theorem commission_exact_iff (event : MineEvent) (full : UInt64)
    (h : checkedAdd event.netBaseReward event.netMinerBoostReward = some full) (r : Round) :
    (∀ id, (CommissionExact event (r.message full id) ↔
        event.netBaseReward.toNat + event.netMinerBoostReward.toNat ≤ 3689348814741910323) ∧
      (r.message full id).commissions ≤ (r.message full id).rewards ∧
      (r.message full id).commissions.toNat + (r.message full id).totalRewards.toNat =
        event.netBaseReward.toNat + event.netMinerBoostReward.toNat) ∧
      ∀ fmt cfg is x, run (PayoutPc.proceed fmt cfg r) (.getChallenge full, []) is = some x →
        ∀ msg ∈ x.2, ∃ id, msg = r.message full id := by
  have hsum : full.toNat = event.netBaseReward.toNat + event.netMinerBoostReward.toNat := checkedAdd_eq_some h
  constructor
  · intro id
    have hle : (r.message full id).commissions ≤ (r.message full id).rewards :=
      UInt64.le_iff_toNat_le.2 (commissionOf_le full)
    have htotal : (r.message full id).commissions.toNat + (r.message full id).totalRewards.toNat =
        event.netBaseReward.toNat + event.netMinerBoostReward.toNat := by
      rw [Nat.add_comm, r.message_totalRewards full id, hsum]
    refine ⟨?_, hle, htotal⟩
    rw [← hsum, ← commissionOf_eq_iff full]
    constructor
    · intro hexact
      have hcommission := hexact.commission
      rwa [← hsum] at hcommission
    · intro hcommission
      refine ⟨?_, hle, htotal⟩
      rw [← hsum]
      exact hcommission
  · intro fmt cfg is x hrun
    have hstart : Pays r full (.getChallenge full, []) := ⟨Or.inl rfl, by simp⟩
    exact (run_invariant' (I := Pays r full) Pays.step hstart hrun).sent

theorem commission_exact_example : CommissionExact ⟨900, 100⟩ (exampleRound.message 1000 1) :=
  ((commission_exact_iff ⟨900, 100⟩ 1000 (by decide) exampleRound).1 1).1.2 (by decide)

/-- At a reward of `2 ^ 62` the product wraps, and a fifth of the commission is left. -/
theorem commission_wraps :
    checkedAdd 4611686018427387904 0 = some 4611686018427387904 ∧
      ¬ CommissionExact ⟨4611686018427387904, 0⟩ (exampleRound.message 4611686018427387904 1) ∧
        commissionOf 4611686018427387904 = 46116860184273879 := by
  decide

end BitzPool
