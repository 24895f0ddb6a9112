import BitzPool.ClaimBooked
import Mathlib.Data.Finset.Basic

/-!
# What `claim_system` removes

`claim_system` works on a copy of a queued item, for minutes, and then removes whatever is stored under the key: after
the claim is booked, when the amount does not cover the token account that has to be created, and when it gets no
blockhash, although the log announces a retry.  Which token accounts exist is a fact of the chain (`OnChain`), and a
failed request for one says nothing about it.  Three things make an accepted claim disappear unpaid: a failed blockhash
request, a failed balance request for an account that does exist when the amount is below the price of a new one, and an
insertion under the key while its item is in process.  `removals_settled_iff` says that no others do.
-/

namespace BitzPool

open Keyed Database Transition Update

/-- The key that is about to be removed, with the item that was processed. -/
def ClaimPc.removing? : ClaimPc → Option (Pubkey × ClaimsQueueItem)
  | .remove tx => some (tx.minerPubkey, tx.item)
  | .drop miner item => some (miner, item)
  | _ => none

/-- The tasks together with the token accounts on the chain, each given by the wallet it belongs to. -/
structure OnChain where
  treasury : Treasury
  accounts : Finset Pubkey

/-- A step of the tasks, or somebody opens or closes a token account: its owner, or a transaction of `claim_system`. -/
inductive ChainAction
  | act (a : Treasury.Action)
  | openAccount (owner : Pubkey)
  | closeAccount (owner : Pubkey)

/-- A balance is reported only of an account that exists; an error says nothing. -/
def TokenAnswer.Honest (accounts : Finset Pubkey) (owner : Pubkey) (a : TokenAnswer) : Prop :=
  a ≠ .error → owner ∈ accounts

instance (accounts : Finset Pubkey) (owner : Pubkey) (a : TokenAnswer) : Decidable (a.Honest accounts owner) :=
  inferInstanceAs (Decidable (a ≠ .error → owner ∈ accounts))

/-- The wallet whose token account a step asks for, and the answer it gets. -/
def Treasury.asked (s : Treasury) : Treasury.Action → Option (Pubkey × TokenAnswer)
  | .claimStep (.tokenAccount a) => s.claim.item?.map fun p => (p.2.receiverPubkey, a)
  | .requestStep i (.tokenAccount a) =>
    match s.requests[i]? with
    | some (.directTokenAccount pubkey _) => some (pubkey, a)
    | some (.v2TokenAccount params) => some (params.receiverPubkey, a)
    | _ => none
  | _ => none

def OnChain.step (su : Setup) (x : OnChain) : ChainAction → Option OnChain
  | .act a =>
    if ∀ q ∈ x.treasury.asked a, q.2.Honest x.accounts q.1 then
      (x.treasury.step su a).map fun s => { x with treasury := s }
    else none
  | .openAccount owner => some { x with accounts := insert owner x.accounts }
  | .closeAccount owner => some { x with accounts := x.accounts.erase owner }

/-- What an observer of `claim_system` notes about the item in process: whether its key was inserted again, whether the
blockhash request failed, and, at the balance request, whether the receiver's token account was missing, or was there
and the answer did not show it. -/
structure RemovalWatch where
  replaced : Bool
  noBlockhash : Bool
  missing : Bool
  unseen : Bool
  deriving DecidableEq

namespace Treasury

/-- The step inserts under the key in process. -/
def Replaces (s : Treasury) (a : Action) : Prop :=
  ∃ ins ∈ s.insertion a, s.claim.item?.map Prod.fst = some ins.minerPubkey

instance (s : Treasury) (a : Action) : Decidable (s.Replaces a) :=
  inferInstanceAs (Decidable (∃ ins ∈ s.insertion a, s.claim.item?.map Prod.fst = some ins.minerPubkey))

/-- The receiver of the item in process has a token account. -/
def AccountExists (s : Treasury) (accounts : Finset Pubkey) : Prop :=
  ∃ p ∈ s.claim.item?, p.2.receiverPubkey ∈ accounts

instance (s : Treasury) (accounts : Finset Pubkey) : Decidable (s.AccountExists accounts) :=
  inferInstanceAs (Decidable (∃ p ∈ s.claim.item?, p.2.receiverPubkey ∈ accounts))

/-- What the observer notes at a step of the tasks. -/
def noteRemoval (s : Treasury) (accounts : Finset Pubkey) : Action → RemovalWatch → RemovalWatch
  | .claimStep (.pick _), _ => ⟨false, false, false, false⟩
  | .claimStep (.tokenAccount a), w => { w with
      missing := decide (¬ s.AccountExists accounts)
      unseen := decide (s.AccountExists accounts ∧ a ≠ .uiAmount) }
  | .claimStep (.blockhash ok), w => { w with noBlockhash := !ok }
  | a, w => { w with replaced := w.replaced || decide (s.Replaces a) }

def watchRemoval (x : OnChain) : ChainAction → RemovalWatch → RemovalWatch
  | .act a, w => x.treasury.noteRemoval x.accounts a w
  | _, w => w

/-- The item in process is paid and has its row in `claims`. -/
def Paid (s : Treasury) (item : ClaimsQueueItem) : Prop :=
  ∃ tx, s.claim.tx? = some tx ∧ tx.item = item ∧ ⟨tx, true⟩ ∈ s.chain.landed ∧
    ∃ row ∈ s.db.claims, s.db.Links tx row.toInsertClaim

def removes : ChainAction → Bool
  | .act (.claimStep .remove) => true
  | _ => false

/-- A step that removes a key removes the item that was processed, and that item is paid, or below the amount needed to
create its receiver's token account, which was missing. -/
def RemovesSettled (x : OnChain × RemovalWatch) (a : ChainAction) : Prop :=
  removes a = true → ∀ k item, x.1.treasury.claim.removing? = some (k, item) →
    x.1.treasury.queue.lookup k = some item ∧
      (x.1.treasury.Paid item ∨ x.2.missing = true ∧ item.amount < ataFee)

/-- At a removal, the key was not inserted again since its item was picked, a blockhash was received, and an item below
the price of a token account has not been taken for one without it. -/
def RemovesClean (x : OnChain × RemovalWatch) (a : ChainAction) : Prop :=
  removes a = true → ∀ p ∈ x.1.treasury.claim.removing?,
    x.2.replaced = false ∧ x.2.noBlockhash = false ∧ (x.2.unseen = true → ataFee ≤ p.2.amount)

instance (x : OnChain × RemovalWatch) (a : ChainAction) : Decidable (RemovesClean x a) :=
  inferInstanceAs (Decidable (removes a = true → ∀ p ∈ x.1.treasury.claim.removing?,
    x.2.replaced = false ∧ x.2.noBlockhash = false ∧ (x.2.unseen = true → ataFee ≤ p.2.amount)))

/-! ### The invariant -/

/-- The item in process is stored under its key until it is replaced, and then a later one is: tickets tell them
apart. -/
structure Stored (tickets : ℕ) (queue : ClaimsQueue) (current : Option (Pubkey × ClaimsQueueItem)) (replaced : Bool) :
    Prop where
  queueLt : ∀ {k item}, queue.lookup k = some item → item.ticket < tickets
  itemLt : ∀ {k item}, current = some (k, item) → item.ticket < tickets
  kept : replaced = false → ∀ {k item}, current = some (k, item) → queue.lookup k = some item
  later : replaced = true → ∀ {k item}, current = some (k, item) →
    ∀ {item'}, queue.lookup k = some item' → item.ticket < item'.ticket

/-- The item in process once the price of a token account has been held against it. -/
def priced? : ClaimPc → Option (Pubkey × ClaimsQueueItem)
  | .tokenAccount _ _ => none
  | .drop _ _ => none
  | pc => pc.item?

/-- The notes say what happened to the item in process. -/
structure Noted (tickets : ℕ) (queue : ClaimsQueue) (pc : ClaimPc) (w : RemovalWatch) : Prop where
  stored : Stored tickets queue pc.item? w.replaced
  covered : ∀ {k item}, priced? pc = some (k, item) → w.missing = true ∨ w.unseen = true → ataFee ≤ item.amount
  received : pc.item? ≠ none → (∀ k item, pc ≠ .drop k item) → w.noBlockhash = false
  drop : ∀ {k item}, pc = .drop k item →
    (w.noBlockhash = false ∧ (w.unseen = true → ataFee ≤ item.amount) ↔ w.missing = true ∧ item.amount < ataFee)

variable {tickets : ℕ} {queue : ClaimsQueue} {pc pc' : ClaimPc} {w : RemovalWatch}

/-- Back at the top of the loop. -/
private theorem Noted.toIdle (h : Noted tickets queue pc w) {queue' : ClaimsQueue} {w' : RemovalWatch}
    (hsub : ∀ {k item}, queue'.lookup k = some item → queue.lookup k = some item) :
    Noted tickets queue' .idle w' where
  stored := ⟨fun hk => h.stored.queueLt (hsub hk), by rintro _ _ ⟨⟩, by rintro _ _ _ ⟨⟩, by rintro _ _ _ ⟨⟩⟩
  covered hpc := by cases hpc
  received hne := absurd rfl hne
  drop hpc := by cases hpc

/-- Steps that stay with the item, once it has a blockhash. -/
private theorem Noted.samePc (h : Noted tickets queue pc w) (hitem : pc'.item? = pc.item?)
    (hpriced : priced? pc' = priced? pc) (hreceived : w.noBlockhash = false)
    (hdrop : ∀ {k item}, pc' ≠ .drop k item) : Noted tickets queue pc' w where
  stored := hitem ▸ h.stored
  covered hpc' := h.covered (hpriced ▸ hpc')
  received _ _ := hreceived
  drop hpc' := absurd hpc' hdrop

variable {su : Setup} {s s' : Treasury} {a : Action} {accounts : Finset Pubkey}

private theorem noteRemoval_claim {input : ClaimInput}
    (h : (∀ k, input ≠ .pick k) ∧ (∀ a, input ≠ .tokenAccount a) ∧ ∀ ok, input ≠ .blockhash ok) (w : RemovalWatch) :
    s.noteRemoval accounts (.claimStep input) w = w := by
  have hnone : ¬ s.Replaces (.claimStep input) := by
    rintro ⟨ins, hins, -⟩
    cases hins
  cases input with
  | pick k => exact absurd rfl (h.1 k)
  | tokenAccount a => exact absurd rfl (h.2.1 a)
  | blockhash ok => exact absurd rfl (h.2.2 ok)
  | _ => simp [noteRemoval, hnone]

/-- An account that a balance is reported of exists. -/
private theorem accountExists_of_uiAmount
    (hhonest : ∀ q ∈ s.asked (.claimStep (.tokenAccount .uiAmount)), q.2.Honest accounts q.1)
    (hitem : s.claim.item? ≠ none) : s.AccountExists accounts := by
  obtain ⟨p, hp⟩ := Option.ne_none_iff_exists'.1 hitem
  have hasked : (p.2.receiverPubkey, TokenAnswer.uiAmount) ∈ s.asked (.claimStep (.tokenAccount .uiAmount)) := by
    simp [asked, hp]
  exact ⟨p, hp, hhonest _ hasked (by simp)⟩

private theorem Noted.claim {m : ClaimMemory} {input : ClaimInput} (h : Noted s.tickets s.queue s.claim w)
    (hhonest : ∀ q ∈ s.asked (.claimStep input), q.2.Honest accounts q.1)
    (hstep : ClaimStep s.now ⟨s.db, s.queue, s.chain⟩ input s.claim m pc) :
    Noted s.tickets m.queue pc (s.noteRemoval accounts (.claimStep input) w) := by
  have hquiet : ((∀ k, input ≠ .pick k) ∧ (∀ a, input ≠ .tokenAccount a) ∧ ∀ ok, input ≠ .blockhash ok) →
      s.noteRemoval accounts (.claimStep input) w = w := fun h => noteRemoval_claim h w
  have hexists : input = .tokenAccount .uiAmount → s.claim.item? ≠ none → s.AccountExists accounts := by
    rintro rfl
    exact accountExists_of_uiAmount hhonest
  generalize s.claim = pc₀ at h hstep hexists
  cases hstep with
  | stay _ hretry =>
    rw [hquiet (by rcases hretry with rfl | ⟨o, rfl⟩ <;> simp)]
    exact h
  | @pick miner item hq =>
    refine ⟨⟨h.stored.queueLt, fun hk => ?_, fun _ _ _ hk => ?_, (by rintro ⟨⟩)⟩, by rintro _ _ ⟨⟩, fun _ _ => rfl,
      by rintro _ _ ⟨⟩⟩
    · cases hk
      exact h.stored.queueLt hq
    · cases hk
      exact hq
  | @price a miner item createsAta claimAmount hprice =>
    refine ⟨h.stored, fun hpc hnoted => ?_, fun _ _ => h.received (by simp [ClaimPc.item?]) (by simp),
      by rintro _ _ ⟨⟩⟩
    cases hpc
    have ha : a ≠ .uiAmount := by
      rintro rfl
      have hacc := hexists rfl (by simp [ClaimPc.item?])
      simp [noteRemoval, hacc] at hnoted
    exact UInt64.not_lt.1 fun hlt => by rw [priceOf_eq_none.2 ⟨ha, hlt⟩] at hprice; cases hprice
  | @insufficient a miner item hprice =>
    refine ⟨h.stored, by rintro _ _ ⟨⟩, fun _ hne => absurd rfl (hne _ _), fun hpc => ?_⟩
    cases hpc
    obtain ⟨ha, hlt⟩ := priceOf_eq_none.1 hprice
    have hreceived := h.received (by simp [ClaimPc.item?]) (by simp)
    by_cases hacc : s.AccountExists accounts <;> simp [noteRemoval, hreceived, ha, hlt, hacc]
  | @build miner item createsAta claimAmount =>
    have hreceived := h.received (by simp [ClaimPc.item?]) (by simp)
    have hsame : s.noteRemoval accounts (.claimStep (.blockhash true)) w = w := by
      obtain ⟨replaced, noBlockhash, missing, unseen⟩ := w
      simp only at hreceived
      simp [noteRemoval, hreceived]
    rw [hsame]
    exact h.samePc rfl rfl hreceived (by simp)
  | @noBlockhash miner item createsAta claimAmount =>
    refine ⟨h.stored, by rintro _ _ ⟨⟩, fun _ hne => absurd rfl (hne _ _), fun hpc => ?_⟩
    cases hpc
    have hle : w.missing = true → ataFee ≤ item.amount := fun hm => h.covered rfl (Or.inl hm)
    simpa [noteRemoval, UInt64.not_lt] using hle
  | remove | drop =>
    rw [hquiet (by simp)]
    exact h.toIdle fun hk => (lookup_erase_cases hk).2
  | abandon | failed | expire =>
    rw [hquiet (by simp)]
    exact h.toIdle id
  | _ =>
    rw [hquiet (by simp)]
    exact h.samePc rfl rfl (h.received (by simp [ClaimPc.item?, ClaimPc.tx?]) (by simp)) (by simp)

private theorem Stored.insert {current : Option (Pubkey × ClaimsQueueItem)} {replaced : Bool}
    (h : Stored tickets queue current replaced) (k receiver : Pubkey) (amount : UInt64) :
    Stored (tickets + 1) (queue.insert k ⟨receiver, amount, tickets⟩) current
      (replaced || decide (current.map Prod.fst = some k)) where
  queueLt {k' item} hk := by
    rcases lookup_insert_cases hk with ⟨-, rfl⟩ | ⟨-, hk⟩
    · exact Nat.lt_succ_self _
    · exact Nat.lt_succ_of_lt (h.queueLt hk)
  itemLt hk := Nat.lt_succ_of_lt (h.itemLt hk)
  kept hr {k' item} hk := by
    obtain ⟨hr, hne⟩ := Bool.or_eq_false_iff.1 hr
    have hkey : k' ≠ k := by
      rintro rfl
      exact of_decide_eq_false hne (by rw [hk]; rfl)
    rw [AList.lookup_insert_ne hkey]
    exact h.kept hr hk
  later hr {k' item} hk {item'} hk' := by
    rcases lookup_insert_cases hk' with ⟨-, rfl⟩ | ⟨hkey, hk'⟩
    · exact h.itemLt hk
    · have hne : current.map Prod.fst ≠ some k := by
        rw [hk]
        exact fun he => hkey (Option.some.inj he)
      rw [decide_eq_false hne, Bool.or_false] at hr
      exact h.later hr hk hk'

private theorem noteRemoval_same (hclaim : ∀ input, a ≠ .claimStep input) (h : s.insertion a = none)
    (w : RemovalWatch) : s.noteRemoval accounts a w = w := by
  have hnone : ¬ s.Replaces a := by
    rintro ⟨ins, hins, -⟩
    rw [h] at hins
    cases hins
  cases a with
  | claimStep input => exact absurd rfl (hclaim input)
  | _ => simp [noteRemoval, hnone]

theorem Noted.step (h : Noted s.tickets s.queue s.claim w)
    (hhonest : ∀ q ∈ s.asked a, q.2.Honest accounts q.1) (hstep : Step su s a s') :
    Noted s'.tickets s'.queue s'.claim (s.noteRemoval accounts a w) := by
  cases hstep with
  | claim hstep => exact h.claim hhonest hstep
  | @insert i ins answer hpc =>
    have hins := insertion_of_insert hpc
    have hreplaces : s.Replaces (.requestStep i .insert) ↔ s.claim.item?.map Prod.fst = some ins.minerPubkey := by
      simp [Replaces, hins]
    have hwatch : s.noteRemoval accounts (.requestStep i .insert) w =
        { w with replaced := w.replaced || decide (s.claim.item?.map Prod.fst = some ins.minerPubkey) } := by
      simp only [noteRemoval, hreplaces]
    rw [hwatch]
    exact ⟨h.stored.insert ins.minerPubkey ins.receiverPubkey ins.amount, h.covered, h.received, h.drop⟩
  | check hpc hstep =>
    rw [noteRemoval_same (by simp) (insertion_of_check hpc hstep)]
    exact h
  | _ =>
    rw [noteRemoval_same (by simp) rfl]
    exact h

/-! ### Runs -/

/-- The invariant: the notes are right, and the ledger has the bookings of the transactions seen finalised. -/
structure Recorded (db₀ : Database) (s : Treasury) (w : RemovalWatch) : Prop where
  known : s.Known
  books : ∃ seen bookings, Books db₀ s.db s.claim seen bookings ∧ Numbered s.chain s.claim seen
  noted : Noted s.tickets s.queue s.claim w

theorem Recorded.step {db₀ : Database} (hs : Recorded db₀ s w)
    (hhonest : ∀ q ∈ s.asked a, q.2.Honest accounts q.1) (hstep : Step su s a s') :
    Recorded db₀ s' (s.noteRemoval accounts a w) := by
  obtain ⟨hknown, ⟨seen, bookings, hbooks, hnumbered⟩, hnoted⟩ := hs
  obtain ⟨bookings', hbooks'⟩ := Books.step hknown hbooks hstep
  exact ⟨hknown.step hstep, ⟨_, bookings', hbooks', hnumbered.step hstep⟩, hnoted.step hhonest hstep⟩

theorem Recorded.stepOnChain {db₀ : Database} {x x' : OnChain} {a : ChainAction} (hx : Recorded db₀ x.treasury w)
    (hstep : x.step su a = some x') : Recorded db₀ x'.treasury (watchRemoval x a w) := by
  cases a with
  | act a =>
    simp only [OnChain.step] at hstep
    split at hstep
    · next hhonest =>
      obtain ⟨s', hs', rfl⟩ := Option.map_eq_some_iff.1 hstep
      exact hx.step hhonest (step_sound hs')
    · cases hstep
  | openAccount owner | closeAccount owner =>
    cases hstep
    exact hx

/-- A transaction that is about to be removed is paid and booked. -/
private theorem paid_of_remove {db₀ : Database} (hs : Recorded db₀ s w) {tx : ClaimTx} (hpc : s.claim = .remove tx) :
    s.Paid tx.item := by
  obtain ⟨seen, bookings, hbooks, hnumbered⟩ := hs.books
  obtain ⟨b, hlast, rfl⟩ := hbooks.last hpc
  have hb : b ∈ bookings := List.mem_of_getLast? hlast
  refine ⟨b.tx, by rw [hpc]; rfl, rfl, hnumbered.landed b.tx ?_, b.row, ?_, hbooks.links b hb⟩
  · rw [hbooks.seen]
    exact List.mem_append_left _ (List.mem_map_of_mem hb)
  · rw [hbooks.claims]
    exact List.mem_append_right _ (List.mem_map_of_mem hb)

/-- The stored item is the one in process exactly when it was not replaced. -/
private theorem Stored.lookup_iff {current : Option (Pubkey × ClaimsQueueItem)} {replaced : Bool}
    (h : Stored tickets queue current replaced) {k : Pubkey} {item : ClaimsQueueItem} (hk : current = some (k, item)) :
    queue.lookup k = some item ↔ replaced = false := by
  constructor
  · intro hlookup
    by_contra hr
    exact Nat.lt_irrefl _ (h.later (Bool.not_eq_false _ ▸ hr) hk hlookup)
  · exact fun hr => h.kept hr hk

private theorem removesSettled_iff {db₀ : Database} {x : OnChain × RemovalWatch} {a : ChainAction}
    (hs : Recorded db₀ x.1.treasury x.2) : RemovesSettled x a ↔ RemovesClean x a := by
  obtain ⟨⟨s, accounts⟩, w⟩ := x
  refine imp_congr_right fun _ => ?_
  cases hpc : s.claim with
  | remove tx =>
    have hitem : s.claim.item? = some (tx.minerPubkey, tx.item) := by rw [hpc]; rfl
    have hreceived : w.noBlockhash = false := hs.noted.received (by simp [hitem]) (by simp [hpc])
    have hcovered : w.unseen = true → ataFee ≤ tx.item.amount := fun hu =>
      hs.noted.covered (by rw [hpc]; rfl) (Or.inr hu)
    constructor
    · intro h p hp
      cases hp
      exact ⟨(hs.noted.stored.lookup_iff hitem).1 (h _ _ rfl).1, hreceived, hcovered⟩
    · intro h k item hk
      cases hk
      exact ⟨(hs.noted.stored.lookup_iff hitem).2 (h _ rfl).1, Or.inl (paid_of_remove hs hpc)⟩
  | drop miner item =>
    have hitem : s.claim.item? = some (miner, item) := by rw [hpc]; rfl
    have hunpaid : ¬ s.Paid item := by
      rintro ⟨tx, htx, -⟩
      rw [hpc] at htx
      cases htx
    constructor
    · intro h p hp
      cases hp
      obtain ⟨hlookup, hsettled⟩ := h _ _ rfl
      exact ⟨(hs.noted.stored.lookup_iff hitem).1 hlookup, (hs.noted.drop hpc).2 (hsettled.resolve_left hunpaid)⟩
    · intro h k' item' hk
      cases hk
      obtain ⟨hreplaced, hshown⟩ := h _ rfl
      exact ⟨(hs.noted.stored.lookup_iff hitem).2 hreplaced, Or.inr ((hs.noted.drop hpc).1 hshown)⟩
  | _ =>
    constructor
    · intro _ p hp
      cases hp
    · intro _ k item hk
      cases hk

/-- In every run of a fresh server, with any token accounts that come and go as they like, `claim_system` removes only
items it has paid and booked, or whose amount does not cover the token account that has to be created, exactly when at
every removal the key was not inserted again while its item was in process, the blockhash for the item was received,
and, for an item below the price of a token account, the balance request showed the account if there was one. -/
theorem removals_settled_iff (su : Setup) {s : Treasury} (h0 : s.Fresh) (accounts : Finset Pubkey)
    (as : List ChainAction) :
    Along (watched (OnChain.step su) watchRemoval) RemovesSettled (⟨s, accounts⟩, ⟨false, false, false, false⟩) as ↔
      Along (watched (OnChain.step su) watchRemoval) RemovesClean (⟨s, accounts⟩, ⟨false, false, false, false⟩) as := by
  let I (x : OnChain × RemovalWatch) : Prop := Recorded s.db x.1.treasury x.2
  refine along_iff_of_invariant (I := I) (watched_invariant (J := I) fun hx _ hstep => ?_) removesSettled_iff ?_
  · exact Recorded.stepOnChain hx hstep
  · refine ⟨h0.known, ⟨[], [], ?_, ?_⟩, ⟨⟨?_, ?_, ?_, ?_⟩, ?_, ?_, ?_⟩⟩ <;> simp only [h0.claim, h0.queue]
    · exact Books.start s.db
    · exact Numbered.start s.chain
    all_goals simp [ClaimPc.item?, ClaimPc.tx?, priced?]

/-- Two claims of a miner without a token account: the first does not cover one and is dropped.  When there is an
account, the second is paid. -/
def droppedAndPaid : List ChainAction :=
  let tx := ⟨0, filled 7, ⟨filled 7, 3000000000, 1⟩, false, 3000000000⟩
  List.flatten [
    List.map .act [.request (.direct (filled 7)), .requestStep 0 (.call .executed), .requestStep 0 (.call .executed),
      .requestStep 0 (.tokenAccount .error), .requestStep 0 .insert, .claimStep (.pick (filled 7)),
      .claimStep (.tokenAccount .error), .claimStep .remove, .request (.direct (filled 7))],
    [.openAccount (filled 7)],
    List.map .act (directChecks 1), [.act (.requestStep 1 .insert)],
    List.map .act (claimSend tx), List.map .act (claimBook tx)]

theorem removals_settled_example :
    (∃ x, run (watched (OnChain.step exampleSetup) watchRemoval)
      (⟨start (Database.single (filled 7) 3000000000), ∅⟩, ⟨false, false, false, false⟩) droppedAndPaid = some x ∧
        x.1.treasury.db.claims.map (·.amount) = [3000000000]) ∧
    Along (watched (OnChain.step exampleSetup) watchRemoval) RemovesSettled
      (⟨start (Database.single (filled 7) 3000000000), ∅⟩, ⟨false, false, false, false⟩) droppedAndPaid :=
  ⟨exists_of_run (by decide +kernel), (removals_settled_iff exampleSetup (start_fresh _) ∅ _).2 (by decide +kernel)⟩

/-- One claim, up to the answer to the blockhash request: an error. -/
def withoutBlockhash : List Action :=
  [.request (.direct (filled 7))] ++ directChecks 0 ++
    [.requestStep 0 .insert, .claimStep (.pick (filled 7)), .claimStep (.tokenAccount .uiAmount),
      .claimStep (.blockhash false)]

/-- One claim of a miner with a token account and 3000000000 units; both balance requests fail, the one of the handler
and the one of `claim_system`. -/
def withoutBalance : List Action :=
  [.request (.direct (filled 7)), .requestStep 0 (.call .executed), .requestStep 0 (.call .executed),
    .requestStep 0 (.tokenAccount .error), .requestStep 0 .insert, .claimStep (.pick (filled 7)),
    .claimStep (.tokenAccount .error)]

/-- Two claims of a miner; the second is inserted while the first is being sent, and the first is booked. -/
def secondWhileSent : List Action :=
  [.request (.direct (filled 7)), .request (.direct (filled 7))] ++ directChecks 0 ++ directChecks 1 ++
    [.requestStep 0 .insert] ++ claimSend (exampleTx 0 0) ++ [.requestStep 1 .insert] ++
      [.land (exampleTx 0 0) true, .claimStep (.status (.finalized true))] ++
        List.replicate 7 (.claimStep (.call .executed))

/-- A removal goes wrong when another item is stored, or when nothing was sent for an item whose receiver has its
account. -/
theorem not_removesSettled {x : OnChain × RemovalWatch} {k : Pubkey} {item : ClaimsQueueItem}
    (hremoving : x.1.treasury.claim.removing? = some (k, item))
    (h : x.1.treasury.queue.lookup k ≠ some item ∨ x.1.treasury.claim.tx? = none ∧ x.2.missing = false) :
    ¬ RemovesSettled x (.act (.claimStep .remove)) := by
  intro hsettled
  obtain ⟨hlookup, hpaid⟩ := hsettled rfl k item hremoving
  obtain ⟨htx, hmissing⟩ := h.resolve_left (not_not.2 hlookup)
  rcases hpaid with ⟨tx, htx', -⟩ | ⟨hmissing', -⟩
  · rw [htx] at htx'
    cases htx'
  · rw [hmissing] at hmissing'
    cases hmissing'

/-- The run of `as` ends where `claim_system` is about to remove what it must not: every request was answered with 200,
`stored` is what it takes from the queue, and `sent` all that was ever sent. -/
def RemovesUnpaid (s₀ : Treasury) (as : List Action) (stored : ClaimsQueueItem) (sent : List ClaimTx) : Prop :=
  ∃ x x', run (watched (OnChain.step exampleSetup) watchRemoval) (⟨s₀, {filled 7}⟩, ⟨false, false, false, false⟩)
      (as.map .act) = some x ∧
    ¬ RemovesSettled x (.act (.claimStep .remove)) ∧
    (∀ pc ∈ x.1.treasury.requests, pc = .answered ⟨200, "Claim submitted"⟩) ∧
    x.1.treasury.queue.lookup (filled 7) = some stored ∧
    x.1.step exampleSetup (.act (.claimStep .remove)) = some x' ∧
    x'.treasury.queue.lookup (filled 7) = none ∧ x'.treasury.chain.sent = sent

/-- What an evaluation of the run has to show. -/
private theorem removesUnpaid_of_run {s₀ : Treasury} {as : List Action} {stored i : ClaimsQueueItem}
    {sent : List ClaimTx}
    (h : ∃ x, run (watched (OnChain.step exampleSetup) watchRemoval)
        (⟨s₀, {filled 7}⟩, ⟨false, false, false, false⟩) (as.map .act) = some x ∧
      x.1.treasury.claim.removing? = some (filled 7, i) ∧
      (x.1.treasury.queue.lookup (filled 7) ≠ some i ∨ x.1.treasury.claim.tx? = none ∧ x.2.missing = false) ∧
      (∀ pc ∈ x.1.treasury.requests, pc = .answered ⟨200, "Claim submitted"⟩) ∧
      x.1.treasury.queue.lookup (filled 7) = some stored ∧
      ∃ x' ∈ x.1.step exampleSetup (.act (.claimStep .remove)),
        x'.treasury.queue.lookup (filled 7) = none ∧ x'.treasury.chain.sent = sent) :
    RemovesUnpaid s₀ as stored sent := by
  obtain ⟨x, hrun, hremoving, hbad, hrequests, hstored, x', hstep, hafter⟩ := h
  exact ⟨x, x', hrun, not_removesSettled hremoving hbad, hrequests, hstored, hstep, hafter⟩

/-- The removals after a failed blockhash request, and after a failed request for the balance of an account that exists,
leave nothing to retry; the removal of the first of two claims takes the second with it, which was answered like the
first and is not paid. -/
theorem claims_disappear :
    RemovesUnpaid exampleStart withoutBlockhash ⟨filled 7, 5000000000, 0⟩ [] ∧
      RemovesUnpaid (start (Database.single (filled 7) 3000000000)) withoutBalance ⟨filled 7, 1000000000, 0⟩ [] ∧
      RemovesUnpaid exampleStart secondWhileSent ⟨filled 7, 5000000000, 1⟩ [exampleTx 0 0] := by
  refine ⟨removesUnpaid_of_run (i := ⟨filled 7, 5000000000, 0⟩) (exists_of_run (by decide +kernel)),
    removesUnpaid_of_run (i := ⟨filled 7, 1000000000, 0⟩) (exists_of_run (by decide +kernel)),
    removesUnpaid_of_run (i := ⟨filled 7, 5000000000, 0⟩) (exists_of_run (by decide +kernel))⟩

end Treasury

end BitzPool
