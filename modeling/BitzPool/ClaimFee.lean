import BitzPool.Lib.Run
import BitzPool.TreasurySteps

/-!
# The fee for a token account

Both claim requests and `claim_system` look for the receiver's token account and take the fee for creating one from
an amount of their own: `post_claim_v2` checks that the amount covers the fee and queues all of it, `claim_direct`
queues what is left, and `claim_system` takes the fee from what was queued.  So a claim is paid as it was claimed, with
one fee at most, unless `claim_direct` took the fee already (`claim_paid_iff`).

Requests and `claim_system` are followed through a claim one step at a time, whatever the other tasks do in between.
-/

namespace BitzPool

open Transition Database

/-! ### A request, and the processing of an item -/

/-- A step of a request, with the database, the queue and the clock it meets. -/
structure RequestEvent where
  db : Database
  queue : ClaimsQueue
  now : ℕ
  input : RequestInput

def RequestPc.proceed (pc : RequestPc) (e : RequestEvent) : Option RequestPc :=
  (pc.step e.db e.queue e.now e.input).map Prod.fst

/-- A step of `claim_system`, with the clock and the memory it meets. -/
structure ClaimEvent where
  now : ℕ
  memory : ClaimMemory
  input : ClaimInput

/-- A step of `claim_system` on the item it has picked. -/
def ClaimPc.proceed (pc : ClaimPc) (e : ClaimEvent) : Option ClaimPc :=
  if e.input matches .pick _ then none else (pc.step e.now e.memory e.input).map Prod.snd

/-- What a request claims, when it looks for the token account: everything, or the amount that was signed. -/
def RequestPc.claimed? : RequestPc → Option UInt64
  | .directTokenAccount _ rewards => some rewards.balance
  | .v2TokenAccount p => some p.amount
  | _ => none

def Insertion.item (ins : Insertion) (ticket : ℕ) : ClaimsQueueItem := ⟨ins.receiverPubkey, ins.amount, ticket⟩

/-- `claim_system` when it has picked what was inserted. -/
def Insertion.picked (ins : Insertion) (ticket : ℕ) : ClaimPc := .tokenAccount ins.minerPubkey (ins.item ticket)

/-- When `claim_system` processes the item and finds the token account as in `a`: the item is not dropped as
insufficient, every transaction that is sent for it transfers to its receiver what was claimed less the fee for an
account that it creates, and what is taken from the balance is what was claimed. -/
structure PaidAsClaimed (a : TokenAnswer) (claimed : UInt64) (ins : Insertion) : Prop where
  kept : ∀ ticket now m m' pc, (ins.picked ticket).step now m (.tokenAccount a) = some (m', pc) →
    pc ≠ .drop ins.minerPubkey (ins.item ticket)
  transfer : ∀ ticket now m es pc tx,
    run ClaimPc.proceed (ins.picked ticket) (⟨now, m, .tokenAccount a⟩ :: es) = some pc → pc.tx? = some tx →
      tx.minerPubkey = ins.minerPubkey ∧ tx.item.receiverPubkey = ins.receiverPubkey ∧
        (tx.createsAta = true ↔ a ≠ .uiAmount) ∧
        tx.claimAmount.toNat + (if tx.createsAta then ataFee.toNat else 0) = claimed.toNat
  debit : ∀ ticket now m es tx id poolId now' (m₁ m₂ : ClaimMemory) o,
    run ClaimPc.proceed (ins.picked ticket) (⟨now, m, .tokenAccount a⟩ :: es) = some (.decrease tx id poolId) →
      m₁.db.rewards.Has id →
      (ClaimPc.decrease tx id poolId).step now' m₁ (.call o) = some (m₂, .poolClaimed tx id poolId) →
      m₂.db.balance id + claimed.toNat = m₁.db.balance id

/-! ### The processing of an item -/

/-- What `claim_system` works with once it has priced the item. -/
structure ClaimPc.Priced (a : TokenAnswer) (miner : Pubkey) (item : ClaimsQueueItem) (pc : ClaimPc) : Prop where
  carried : ∀ {x}, pc.item? = some x → x = (miner, item)
  past : ∀ {miner' item'}, pc ≠ .tokenAccount miner' item'
  blockhash : ∀ {miner' item' createsAta claimAmount}, pc = .blockhash miner' item' createsAta claimAmount →
    priceOf a item.amount = some (createsAta, claimAmount)
  tx : ∀ {tx}, pc.tx? = some tx → priceOf a item.amount = some (tx.createsAta, tx.claimAmount)

variable {a : TokenAnswer} {miner : Pubkey} {item : ClaimsQueueItem} {pc pc' : ClaimPc}

/-- A step that stays with the transaction, if there is one, or gives the item up. -/
private theorem ClaimPc.Priced.next (hs : pc.Priced a miner item) (hitem : pc'.item? = pc.item? ∨ pc' = .idle)
    (htx : pc'.tx? = pc.tx? ∨ pc'.tx? = none) (hpast : ∀ {miner' item'}, pc' ≠ .tokenAccount miner' item')
    (hblock : ∀ {miner' item' createsAta claimAmount}, pc' ≠ .blockhash miner' item' createsAta claimAmount) :
    pc'.Priced a miner item where
  carried h := by
    rcases hitem with he | rfl
    · exact hs.carried (he ▸ h)
    · cases h
  past := hpast
  blockhash h := absurd h hblock
  tx h := by
    rcases htx with he | he
    · exact hs.tx (he ▸ h)
    · rw [he] at h
      cases h

theorem ClaimPc.Priced.proceed (hs : pc.Priced a miner item) {e : ClaimEvent} (h : pc.proceed e = some pc') :
    pc'.Priced a miner item := by
  unfold ClaimPc.proceed at h
  split at h
  · cases h
  next hpick =>
  obtain ⟨⟨m', pc''⟩, hstep, rfl⟩ := Option.map_eq_some_iff.1 h
  have hstep := ClaimPc.step_sound hstep
  generalize e.input = input at hpick hstep
  cases hstep with
  | stay => exact hs
  | pick => exact (hpick _ rfl).elim
  | price | insufficient => exact absurd rfl hs.past
  | @build miner' item' createsAta claimAmount =>
    have hprice := hs.blockhash rfl
    exact ⟨hs.carried, by simp, by simp, by rintro tx ⟨⟩; exact hprice⟩
  | noBlockhash => exact hs.next (Or.inl rfl) (Or.inr rfl) (by simp) (by simp)
  | abandon | failed | expire | remove | drop => exact hs.next (Or.inr rfl) (Or.inr rfl) (by simp) (by simp)
  | _ => exact hs.next (Or.inl rfl) (Or.inl rfl) (by simp) (by simp)

/-- From the item it has picked, `claim_system` goes on with the item at its price. -/
theorem priced_of_run {now : ℕ} {m : ClaimMemory} {es : List ClaimEvent}
    (h : run ClaimPc.proceed (.tokenAccount miner item) (⟨now, m, .tokenAccount a⟩ :: es) = some pc) :
    pc.Priced a miner item := by
  obtain ⟨pc₁, hfirst, hrest⟩ := run_cons.1 h
  refine run_invariant' (I := ClaimPc.Priced a miner item) (fun hs hstep => hs.proceed hstep) ?_ hrest
  obtain ⟨⟨m', pc''⟩, hstep, rfl⟩ := Option.map_eq_some_iff.1 hfirst
  cases ClaimPc.step_sound hstep with
  | stay hne => exact absurd rfl (hne _ _)
  | price hp => exact ⟨by rintro x ⟨⟩; rfl, by simp, by rintro _ _ _ _ ⟨⟩; exact hp, by rintro tx ⟨⟩⟩
  | insufficient => exact ⟨by rintro x ⟨⟩; rfl, by simp, by rintro _ _ _ _ ⟨⟩, by rintro tx ⟨⟩⟩

/-! ### Paid as claimed -/

variable {claimed : UInt64} {ins : Insertion}

/-- An item of the claimed amount, which covers the fee if there is one, is paid as it was claimed. -/
theorem paidAsClaimed_of_amount (hamount : ins.amount = claimed) (hfee : a ≠ .uiAmount → ataFee ≤ claimed) :
    PaidAsClaimed a claimed ins where
  kept ticket now m m' pc hstep hdrop := by
    cases ClaimPc.step_sound hstep with
    | stay hne => exact hne _ _ rfl
    | price => cases hdrop
    | insufficient hnone =>
      obtain ⟨ha, hlt⟩ := priceOf_eq_none.1 hnone
      refine UInt64.not_lt.2 (hfee ha) ?_
      rw [← hamount]
      exact hlt
  transfer ticket now m es pc tx h htx := by
    have hs := priced_of_run h
    obtain ⟨hata, hsum⟩ := priceOf_eq_some (hs.tx htx)
    have hitem := hs.carried (ClaimPc.item?_of_tx? htx)
    obtain ⟨hminer, hitem⟩ := Prod.mk.inj hitem
    refine ⟨hminer, by rw [hitem]; rfl, hata, ?_⟩
    rw [← hamount]
    exact hsum
  debit ticket now m es tx id poolId now' m₁ m₂ o h hhas hstep := by
    have hitem := (priced_of_run h).carried (x := (tx.minerPubkey, tx.item)) rfl
    obtain ⟨-, hitem⟩ := Prod.mk.inj hitem
    cases ClaimPc.step_sound hstep with
    | decrease hq =>
      have hbal := (decreaseQuery_spec hhas hq).2.1 id
      rw [if_pos rfl, hitem] at hbal
      rw [← hamount]
      exact hbal

/-- If the fee was taken before the item was queued, it is taken again. -/
theorem not_paidAsClaimed_of_fee (hle : ataFee ≤ claimed) (hamount : ins.amount = claimed - ataFee)
    (ha : a ≠ .uiAmount) : ¬PaidAsClaimed a claimed ins := by
  intro hs
  have hlt : (claimed - ataFee).toNat < claimed.toNat := by
    rw [UInt64.toNat_sub_of_le _ _ hle]
    exact Nat.sub_lt (Nat.lt_of_lt_of_le (by decide) (UInt64.le_iff_toNat_le.1 hle)) (by decide)
  have m : ClaimMemory := ⟨Database.single ins.minerPubkey 0, ∅, ∅⟩
  by_cases hcover : ataFee ≤ ins.amount
  · -- a transaction is sent, for what is left after two fees
    have hrun : run ClaimPc.proceed (ins.picked 0) [⟨0, m, .tokenAccount a⟩, ⟨0, m, .blockhash true⟩] =
        some (.send ⟨m.chain.nextTx, ins.minerPubkey, ins.item 0, true, ins.amount - ataFee⟩ 0) := by
      simp [run, ClaimPc.proceed, ClaimPc.step, Insertion.picked, Insertion.item, ha, hcover]
    have hsum := (hs.transfer 0 0 m _ _ _ hrun rfl).2.2.2
    have hprice : priceOf a ins.amount = some (true, ins.amount - ataFee) := (if_neg ha).trans (if_pos hcover)
    have hsum' := (priceOf_eq_some hprice).2
    rw [hamount] at hsum hsum'
    simp only [if_true] at hsum hsum'
    omega
  · -- the item is dropped
    refine hs.kept 0 0 m m (.drop ins.minerPubkey (ins.item 0)) ?_ rfl
    simp [ClaimPc.step, Insertion.picked, Insertion.item, ha, hcover]

/-- A claim that is accepted when the token account is found as in `a`, and processed when it is found the same, is
paid as it was claimed exactly when it was signed, or the lookup did not fail. -/
theorem claim_paid_iff (verify : Verify) (now : ℕ) (r : ClaimRequest) {es : List RequestEvent} {pc : RequestPc}
    (h : run RequestPc.proceed (r.arrive verify now) es = some pc) (hclaimed : pc.claimed? = some claimed)
    {db : Database} {queue : ClaimsQueue} {now' : ℕ} {answer : Response}
    (haccept : pc.step db queue now' (.tokenAccount a) = some (.insert ins answer, none)) :
    PaidAsClaimed a claimed ins ↔ (∃ p, r = .v2 p) ∨ a ≠ .error := by
  have hserves : pc.Serves r := by
    refine run_invariant' (I := RequestPc.Serves r) (fun {pc e pc'} hs hstep => ?_) (r.arrive_serves verify now) h
    obtain ⟨x, hx, rfl⟩ := Option.map_eq_some_iff.1 hstep
    exact (RequestPc.step_sound hx).serves hs
  generalize haccept' : (RequestPc.insert ins answer) = pc'' at haccept
  cases RequestPc.step_sound haccept with
  | refuse => cases haccept'
  | @directTokenAccount _ pubkey rewards amount hamount =>
    cases haccept'
    cases hclaimed
    cases r with
    | v2 p => exact hserves.elim
    | direct pubkey' =>
      rcases hamount with ⟨rfl, hle, rfl⟩ | ⟨hne, rfl⟩
      · have hnot : ¬PaidAsClaimed .error rewards.balance ⟨pubkey, pubkey, rewards.balance - ataFee⟩ :=
          not_paidAsClaimed_of_fee hle rfl (by simp)
        simpa using hnot
      · simp only [hne, ne_eq, not_false_eq_true, or_true, iff_true]
        exact paidAsClaimed_of_amount rfl fun _ => hserves.2
  | @v2TokenAccount _ p hfee =>
    cases haccept'
    cases hclaimed
    cases r with
    | direct pubkey => exact hserves.elim
    | v2 p' =>
      obtain ⟨rfl, hle⟩ := hserves
      simp only [ClaimRequest.v2.injEq, exists_eq', true_or, iff_true]
      exact paidAsClaimed_of_amount rfl fun _ => hle

/-! ### Examples -/

/-- The steps of a request of the miner `filled 7` with the given balance, up to the token account. -/
def checksWith (balance : UInt64) : List RequestEvent :=
  List.replicate 2 ⟨Database.single (filled 7) balance, ∅, 0, .call .executed⟩

theorem claim_paid_example :
    ∃ pc, run RequestPc.proceed (ClaimRequest.arrive (fun _ _ _ => true) 0 (.direct (filled 7)))
        (checksWith 5000000000) = some pc ∧
      PaidAsClaimed .noUiAmount 5000000000 ⟨filled 7, filled 7, 5000000000⟩ := by
  have h : run RequestPc.proceed (ClaimRequest.arrive (fun _ _ _ => true) 0 (.direct (filled 7)))
      (checksWith 5000000000) = some (.directTokenAccount (filled 7) ⟨1, 5000000000⟩) := rfl
  have haccept : (RequestPc.directTokenAccount (filled 7) ⟨1, 5000000000⟩).step
      (Database.single (filled 7) 5000000000) ∅ 0 (.tokenAccount .noUiAmount) =
        some (.insert ⟨filled 7, filled 7, 5000000000⟩ ⟨200, "Claim submitted"⟩, none) := rfl
  exact ⟨_, h, (claim_paid_iff _ _ _ h rfl haccept).2 (Or.inr (by decide))⟩

/-- `claim_direct` takes the fee, and `claim_system` takes it again: of 5 BITZ the miner gets 1 and is debited 3, and
a claim of 3 BITZ is accepted and then dropped. -/
theorem fee_charged_twice :
    (∃ pc ins answer, run RequestPc.proceed (ClaimRequest.arrive (fun _ _ _ => true) 0 (.direct (filled 7)))
        (checksWith 5000000000) = some pc ∧
      pc.step (Database.single (filled 7) 5000000000) ∅ 0 (.tokenAccount .error) = some (.insert ins answer, none) ∧
      ¬PaidAsClaimed .error 5000000000 ins) ∧
    ∃ pc ins answer, run RequestPc.proceed (ClaimRequest.arrive (fun _ _ _ => true) 0 (.direct (filled 7)))
        (checksWith 3000000000) = some pc ∧
      pc.step (Database.single (filled 7) 3000000000) ∅ 0 (.tokenAccount .error) = some (.insert ins answer, none) ∧
      (ins.picked 0).step 0 ⟨Database.single (filled 7) 3000000000, ∅, ∅⟩ (.tokenAccount .error) =
        some (⟨Database.single (filled 7) 3000000000, ∅, ∅⟩, .drop ins.minerPubkey (ins.item 0)) :=
  ⟨⟨.directTokenAccount (filled 7) ⟨1, 5000000000⟩, ⟨filled 7, filled 7, 3000000000⟩, _, rfl, rfl,
      not_paidAsClaimed_of_fee (by decide) rfl (by decide)⟩,
    .directTokenAccount (filled 7) ⟨1, 3000000000⟩, ⟨filled 7, filled 7, 1000000000⟩, _, rfl, rfl, rfl⟩

end BitzPool
