import BitzPool.Lib.Update
import BitzPool.Steps
import BitzPool.Treasury

/-!
# Steps of the treasury

`Step` lists what an action can do to the treasury, in terms of the steps of its tasks; `step_sound` connects it to
`Treasury.step`.  From it: miners and balances stay known (`Step.extends`), and whoever is in the queue, in a request
past its balance check, or being paid is registered (`Known`).
-/

namespace BitzPool

open Keyed Database Update

namespace Treasury

variable {su : Setup} {s s' : Treasury} {a : Action}

inductive Step (su : Setup) (s : Treasury) : Action → Treasury → Prop
  | tick : Step su s .tick { s with now := s.now + 1 }
  | request {r : ClaimRequest} :
      Step su s (.request r) { s with requests := s.requests ++ [r.arrive su.verify s.now] }
  | check {i : ℕ} {input : RequestInput} {pc pc' : RequestPc} :
      s.requests[i]? = some pc → RequestStep s.db s.queue s.now input pc pc' none →
      Step su s (.requestStep i input) { s with requests := s.requests.set i pc' }
  | insert {i : ℕ} {ins : Insertion} {answer : Response} :
      s.requests[i]? = some (.insert ins answer) →
      Step su s (.requestStep i .insert) { s with
        requests := s.requests.set i (.answered answer)
        queue := s.queue.insert ins.minerPubkey ⟨ins.receiverPubkey, ins.amount, s.tickets⟩
        tickets := s.tickets + 1 }
  | claim {input : ClaimInput} {m : ClaimMemory} {pc : ClaimPc} :
      ClaimStep s.now ⟨s.db, s.queue, s.chain⟩ input s.claim m pc →
      Step su s (.claimStep input) { s with db := m.db, queue := m.queue, chain := m.chain, claim := pc }
  | land {tx : ClaimTx} {ok : Bool} {c : Chain} :
      s.chain.land? tx ok = some c → Step su s (.land tx ok) { s with chain := c }
  | mined {r : Round} : Step su s (.mined r) { s with payouts := s.payouts ++ [(r, .getTransaction)] }
  | payout {i : ℕ} {input : PayoutInput} {r : Round} {pc pc' : PayoutPc} {db' : Database}
      {msgs : List MessageInternalMineSuccess} :
      s.payouts[i]? = some (r, pc) → PayoutStep su.config r s.db input pc db' pc' msgs →
      Step su s (.payoutStep i input) { s with
        db := db'
        payouts := s.payouts.set i (r, pc')
        channel := s.channel ++ msgs
        commissions := commissionCredited su.config pc pc' ++ s.commissions }
  | receive {socks : Sockets} {msg : MessageInternalMineSuccess} {channel : List MessageInternalMineSuccess}
      {t : MineTask} :
      s.channel = msg :: channel → s.mine.receive su.config.poolId msg socks = some t →
      Step su s (.receive socks) { s with channel := channel, mine := t }
  | mineCall {o : CallOutcome} {db' : Database} {t : MineTask} :
      MineStep o s.db s.mine db' t → Step su s (.mineCall o) { s with db := db', mine := t }
  | signup {o : CallOutcome} {id : MinerId} {pubkey : Pubkey} :
      Step su s (.signup o id pubkey) { s with db := (signupUserTransaction o id pubkey s.db).2 }

theorem step_sound (h : step su s a = some s') : Step su s a s' := by
  cases a with
  | tick => cases h; exact .tick
  | request r => cases h; exact .request
  | requestStep i input =>
    simp only [step, stepRequest, Option.bind_eq_bind, Option.bind_eq_some_iff, Option.pure_def,
      Option.some.injEq] at h
    obtain ⟨pc, hpc, ⟨pc', ins⟩, hstep, rfl⟩ := h
    have hstep := RequestPc.step_sound hstep
    cases ins with
    | none => exact .check hpc hstep
    | some ins =>
      cases hstep
      exact .insert hpc
  | claimStep input =>
    simp only [step, stepClaim, Option.bind_eq_bind, Option.bind_eq_some_iff, Option.pure_def,
      Option.some.injEq] at h
    obtain ⟨⟨m, pc⟩, hstep, rfl⟩ := h
    exact .claim (ClaimPc.step_sound hstep)
  | land tx ok =>
    obtain ⟨c, hc, rfl⟩ := Option.map_eq_some_iff.1 h
    exact .land hc
  | mined r => cases h; exact .mined
  | payoutStep i input =>
    simp only [step, stepPayout, Option.bind_eq_bind, Option.bind_eq_some_iff, Option.pure_def,
      Option.some.injEq] at h
    obtain ⟨⟨r, pc⟩, hp, ⟨db, pc', msgs⟩, hstep, rfl⟩ := h
    exact .payout hp (PayoutPc.step_sound hstep)
  | receive socks =>
    simp only [step, stepReceive] at h
    split at h
    · cases h
    · next msg channel hch =>
      obtain ⟨t, ht, rfl⟩ := Option.map_eq_some_iff.1 h
      exact .receive hch ht
  | mineCall o =>
    obtain ⟨⟨db, t⟩, ht, rfl⟩ := Option.map_eq_some_iff.1 h
    exact .mineCall (MineTask.call_sound ht)
  | signup o id pubkey => cases h; exact .signup

/-! ### Miners stay known -/

theorem Step.extends (h : Step su s a s') : s.db.Extends s'.db := by
  cases h with
  | claim h => exact extends_of_claimStep h
  | payout _ h => exact (grows_of_payoutStep h).ext
  | mineCall h => exact (grows_of_mineStep h).ext
  | signup => exact (grows_of_signup ..).ext
  | _ => exact .refl _

end Treasury

/-! ### Who is known -/

/-- The pubkey whose rewards a request has looked up. -/
def RequestPc.checked? : RequestPc → Option Pubkey
  | .directLastClaim pubkey _ | .directTokenAccount pubkey _ => some pubkey
  | .v2LastClaim p _ | .v2TokenAccount p => some p.minerPubkey
  | .insert ins _ => some ins.minerPubkey
  | .directRewards _ | .v2Queue _ | .v2Rewards _ | .answered _ => none

/-- The transaction `claim_system` works on. -/
def ClaimPc.tx? : ClaimPc → Option ClaimTx
  | .send tx _ | .poll tx | .getMiner tx | .getPool tx _ | .decrease tx _ _ | .poolClaimed tx _ _ | .addTxn tx _ _
  | .getTxn tx _ _ | .addClaim tx _ | .remove tx | .dead tx => some tx
  | .idle | .tokenAccount _ _ | .blockhash _ _ _ _ | .drop _ _ => none

/-- The item `claim_system` works on, with its key. -/
def ClaimPc.item? : ClaimPc → Option (Pubkey × ClaimsQueueItem)
  | .tokenAccount miner item | .blockhash miner item _ _ | .drop miner item => some (miner, item)
  | pc => pc.tx?.map fun tx => (tx.minerPubkey, tx.item)

theorem ClaimPc.item?_of_tx? {pc : ClaimPc} {tx : ClaimTx} (h : pc.tx? = some tx) :
    pc.item? = some (tx.minerPubkey, tx.item) := by
  cases pc <;> cases h <;> rfl

/-- The pubkey and the id of the miner that `claim_system` has looked up. -/
def ClaimPc.miner? : ClaimPc → Option (Pubkey × MinerId)
  | .getPool tx id | .decrease tx id _ | .poolClaimed tx id _ | .addTxn tx id _ | .getTxn tx id _ =>
    some (tx.minerPubkey, id)
  | _ => none

theorem checked?_of_requestStep {db : Database} {queue : ClaimsQueue} {now : ℕ} {i : RequestInput}
    {pc pc' : RequestPc} {ins : Option Insertion} {k : Pubkey} (h : RequestStep db queue now i pc pc' ins)
    (hk : pc'.checked? = some k) : pc.checked? = some k ∨ db.Registered k := by
  cases h with
  | directRewards hr _ | v2Rewards hr _ =>
    cases hk
    exact Or.inr (Option.isSome_iff_exists.2 ⟨_, hr⟩)
  | refuse | v2Queue | insert => cases hk
  | _ => exact Or.inl hk

namespace Treasury

theorem item?_of_claimStep {now : ℕ} {m m' : ClaimMemory} {i : ClaimInput} {pc pc' : ClaimPc} {k : Pubkey}
    {item : ClaimsQueueItem} (h : ClaimStep now m i pc m' pc') (hi : pc'.item? = some (k, item)) :
    pc.item? = some (k, item) ∨ m.queue.lookup k = some item := by
  cases h with
  | pick hq => cases hi; exact Or.inr hq
  | _ => first | exact Or.inl hi | cases hi

theorem miner?_of_claimStep {now : ℕ} {m m' : ClaimMemory} {i : ClaimInput} {pc pc' : ClaimPc} {k : Pubkey}
    {id : MinerId} (h : ClaimStep now m i pc m' pc') (hi : pc'.miner? = some (k, id)) :
    pc.miner? = some (k, id) ∨ ∃ miner, m.db.miners.find? k = some miner ∧ miner.id = id := by
  cases h with
  | gotMiner hm => cases hi; exact Or.inr ⟨_, hm, rfl⟩
  | _ => first | exact Or.inl hi | cases hi

theorem lookup_of_claimStep {now : ℕ} {m m' : ClaimMemory} {i : ClaimInput} {pc pc' : ClaimPc} {k : Pubkey}
    {item : ClaimsQueueItem} (h : ClaimStep now m i pc m' pc') (hq : m'.queue.lookup k = some item) :
    m.queue.lookup k = some item := by
  cases h with
  | remove | drop => exact (lookup_erase_cases hq).2
  | _ => exact hq

/-- Whoever is in the queue, in a request past its balance check, or being paid is registered. -/
structure Known (s : Treasury) : Prop where
  queue : ∀ {k item}, s.queue.lookup k = some item → s.db.Registered k
  requests : ∀ {pc k}, pc ∈ s.requests → pc.checked? = some k → s.db.Registered k
  claim : ∀ {k item}, s.claim.item? = some (k, item) → s.db.Registered k
  miner : ∀ {k id}, s.claim.miner? = some (k, id) → ∃ m, s.db.miners.find? k = some m ∧ m.id = id

variable {su : Setup} {s s' : Treasury} {a : Action}

theorem arrive_checked (verify : Verify) (now : ℕ) (r : ClaimRequest) : (r.arrive verify now).checked? = none := by
  rcases r.arrive_cases verify now with ⟨pubkey, -, he⟩ | ⟨p, -, he⟩ | ⟨answer, he⟩ <;> rw [he] <;> rfl

theorem Known.step (hs : s.Known) (h : Step su s a s') : s'.Known := by
  have hext := h.extends
  have keep : ∀ {k}, s.db.Registered k → s'.db.Registered k := fun hk => hk.extends hext
  have miner : ∀ {k id}, s.claim.miner? = some (k, id) → ∃ m, s'.db.miners.find? k = some m ∧ m.id = id := by
    intro k id hk
    obtain ⟨m, hm, hid⟩ := hs.miner hk
    exact ⟨m, hext.miner hm, hid⟩
  cases h with
  | request =>
    refine ⟨hs.queue, fun hmem hk => ?_, hs.claim, hs.miner⟩
    rcases List.mem_append.1 hmem with hmem | hmem
    · exact hs.requests hmem hk
    · rw [List.mem_singleton.1 hmem, arrive_checked] at hk
      cases hk
  | check hpc hstep =>
    refine ⟨hs.queue, fun hmem hk => ?_, hs.claim, hs.miner⟩
    rcases List.mem_or_eq_of_mem_set hmem with hmem | rfl
    · exact hs.requests hmem hk
    · rcases checked?_of_requestStep hstep hk with hk | hk
      · exact hs.requests (List.mem_of_getElem? hpc) hk
      · exact hk
  | @insert i ins answer hpc =>
    refine ⟨fun {k item} hk => ?_, fun hmem hk => ?_, hs.claim, hs.miner⟩
    · rcases lookup_insert_cases hk with ⟨rfl, -⟩ | ⟨-, hk⟩
      · exact hs.requests (List.mem_of_getElem? hpc) rfl
      · exact hs.queue hk
    · rcases List.mem_or_eq_of_mem_set hmem with hmem | rfl
      · exact hs.requests hmem hk
      · cases hk
  | claim hstep =>
    refine ⟨fun hk => keep (hs.queue (lookup_of_claimStep hstep hk)), fun hmem hk => keep (hs.requests hmem hk),
      fun hk => ?_, fun hk => ?_⟩
    · rcases item?_of_claimStep hstep hk with hk | hk
      · exact keep (hs.claim hk)
      · exact keep (hs.queue hk)
    · rcases miner?_of_claimStep hstep hk with hk | ⟨m, hm, hid⟩
      · exact miner hk
      · exact ⟨m, hext.miner hm, hid⟩
  | _ =>
    exact ⟨fun hk => keep (hs.queue hk), fun hmem hk => keep (hs.requests hmem hk), fun hk => keep (hs.claim hk),
      miner⟩

theorem Fresh.known (h : s.Fresh) : s.Known where
  queue hk := by rw [h.queue] at hk; cases hk
  requests hmem _ := by rw [h.requests] at hmem; cases hmem
  claim hk := by rw [h.claim] at hk; cases hk
  miner hk := by rw [h.claim] at hk; cases hk

/-- The miner that is being debited has a balance. -/
theorem Known.has (hs : s.Known) {k : Pubkey} {id : MinerId} (h : s.claim.miner? = some (k, id)) :
    s.db.rewards.Has id := by
  obtain ⟨m, hm, rfl⟩ := hs.miner h
  obtain ⟨item, hitem⟩ : ∃ item, s.claim.item? = some (k, item) := by
    revert h
    cases s.claim <;> rintro ⟨⟩ <;> exact ⟨_, rfl⟩
  obtain ⟨m', hm', hhas⟩ := registered_iff.1 (hs.claim hitem)
  rw [hm] at hm'
  cases hm'
  exact hhas

end Treasury

end BitzPool
