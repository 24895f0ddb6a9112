import BitzPool.TreasurySteps

/-!
# At most one transfer for a claim

After five failed sends, or 120 seconds without a final status, `claim_system` gives a transaction up: the item stays
queued and gets a new transaction, although the old one may still be finalised.  In the runs in which no transaction
that was given up is finalised (`LandingsSeen`), at most one transfer is finalised for each insertion into the queue
(`one_transfer_per_item`).
-/

namespace BitzPool

open Keyed Database Transition Update

/-! ### Giving up -/

/-- The transaction that `claim_system` gives up with a step. -/
def ClaimPc.givesUp : ClaimInput → ClaimPc → Option ClaimTx
  | .send false, .send tx attempts => if maxSends ≤ attempts + 1 then some tx else none
  | .expire, .poll tx => some tx
  | _, _ => none

/-- The finalised transfers for the insertion with a given ticket. -/
def Chain.transfers (c : Chain) (ticket : ℕ) : List Landed :=
  c.landed.filter fun l => l.ok ∧ l.tx.item.ticket = ticket

namespace Treasury

/-- A step does not give up a transaction that was finalised without error, and a transaction that is finalised
without error is the current one. -/
def LandingsSeen (s : Treasury) : Action → Prop
  | .claimStep input => ∀ tx ∈ s.claim.givesUp input, ⟨tx, true⟩ ∉ s.chain.landed
  | .land tx ok => ok = true → s.claim.tx? = some tx
  | _ => True

instance (s : Treasury) (a : Action) : Decidable (s.LandingsSeen a) :=
  match a with
  | .claimStep input => inferInstanceAs (Decidable (∀ tx ∈ s.claim.givesUp input, ⟨tx, true⟩ ∉ s.chain.landed))
  | .land tx ok => inferInstanceAs (Decidable (ok = true → s.claim.tx? = some tx))
  | .tick | .request _ | .requestStep _ _ | .mined _ | .payoutStep _ _ | .receive _ | .mineCall _ | .signup _ _ _ =>
    isTrue trivial

/-! ### At most one transfer for an insertion -/

/-- No item with this ticket is queued or being processed. -/
def Retired (queue : ClaimsQueue) (pc : ClaimPc) (ticket : ℕ) : Prop :=
  (∀ k item, queue.lookup k = some item → item.ticket ≠ ticket) ∧
    ∀ k item, pc.item? = some (k, item) → item.ticket ≠ ticket

/-- The invariant: tickets tell insertions apart, and the ticket of a finalised transfer is retired unless its
transaction is the current one. -/
structure Ticketed (tickets : ℕ) (queue : ClaimsQueue) (chain : Chain) (pc : ClaimPc) : Prop where
  queueLt : ∀ {k item}, queue.lookup k = some item → item.ticket < tickets
  queueInj : ∀ {k k' item item'}, queue.lookup k = some item → queue.lookup k' = some item' →
    item.ticket = item'.ticket → k = k'
  itemLt : ∀ {k item}, pc.item? = some (k, item) → item.ticket < tickets
  itemInj : ∀ {k k' item item'}, pc.item? = some (k, item) → queue.lookup k' = some item' →
    item'.ticket = item.ticket → k' = k
  sentLt : ∀ {tx}, tx ∈ chain.sent → tx.item.ticket < tickets
  retired : ∀ {l}, l ∈ chain.landed → l.ok = true → pc.tx? = some l.tx ∨ Retired queue pc l.tx.item.ticket
  once : ∀ ticket, (chain.transfers ticket).length ≤ 1

variable {tickets : ℕ} {queue : ClaimsQueue} {chain : Chain} {pc pc' : ClaimPc}

/-- Going back to the top of the loop, with or without removing the item: what was finalised must be retired. -/
private theorem Ticketed.toIdle (hs : Ticketed tickets queue chain pc) {queue' : ClaimsQueue}
    (hsub : ∀ {k item}, queue'.lookup k = some item → queue.lookup k = some item)
    (hcur : ∀ {l}, l ∈ chain.landed → l.ok = true → pc.tx? = some l.tx →
      ∀ k item, queue'.lookup k = some item → item.ticket ≠ l.tx.item.ticket) :
    Ticketed tickets queue' chain .idle where
  queueLt h := hs.queueLt (hsub h)
  queueInj h h' := hs.queueInj (hsub h) (hsub h')
  itemLt h := by cases h
  itemInj h := by cases h
  sentLt := hs.sentLt
  retired {l} hl hok := by
    refine Or.inr ⟨?_, by rintro k item ⟨⟩⟩
    rcases hs.retired hl hok with htx | hret
    · exact hcur hl hok htx
    · exact fun k item hq => hret.1 k item (hsub hq)
  once := hs.once

/-- Steps that stay with the item and its transaction. -/
private theorem Ticketed.samePc (hs : Ticketed tickets queue chain pc) (hitem : pc'.item? = pc.item?)
    (htx : pc'.tx? = pc.tx?) : Ticketed tickets queue chain pc' where
  queueLt := hs.queueLt
  queueInj := hs.queueInj
  itemLt h := hs.itemLt (hitem ▸ h)
  itemInj h := hs.itemInj (hitem ▸ h)
  sentLt := hs.sentLt
  retired hl hok := by
    rw [htx]
    refine (hs.retired hl hok).imp_right fun hret => ⟨hret.1, ?_⟩
    rw [hitem]
    exact hret.2
  once := hs.once

private theorem Ticketed.send (hs : Ticketed tickets queue chain pc) {tx : ClaimTx} (htx : pc.tx? = some tx) :
    Ticketed tickets queue (chain.send tx) pc where
  queueLt := hs.queueLt
  queueInj := hs.queueInj
  itemLt := hs.itemLt
  itemInj := hs.itemInj
  sentLt h := by
    rcases List.mem_cons.1 h with rfl | h
    · exact hs.itemLt (ClaimPc.item?_of_tx? htx)
    · exact hs.sentLt h
  retired := hs.retired
  once := hs.once

private theorem Ticketed.pick (hs : Ticketed tickets queue chain .idle) {miner : Pubkey} {item : ClaimsQueueItem}
    (hq : queue.lookup miner = some item) : Ticketed tickets queue chain (.tokenAccount miner item) where
  queueLt := hs.queueLt
  queueInj := hs.queueInj
  itemLt h := by cases h; exact hs.queueLt hq
  itemInj h hq' he := by cases h; exact hs.queueInj hq' hq he
  sentLt := hs.sentLt
  retired hl hok := by
    rcases hs.retired hl hok with htx | hret
    · cases htx
    · exact Or.inr ⟨hret.1, by rintro k item ⟨⟩; exact hret.1 _ _ hq⟩
  once := hs.once

private theorem Ticketed.build {miner : Pubkey} {item : ClaimsQueueItem} {createsAta : Bool} {claimAmount : UInt64}
    (hs : Ticketed tickets queue chain (.blockhash miner item createsAta claimAmount)) :
    Ticketed tickets queue chain.build (.send ⟨chain.nextTx, miner, item, createsAta, claimAmount⟩ 0) where
  queueLt := hs.queueLt
  queueInj := hs.queueInj
  itemLt h := by cases h; exact hs.itemLt rfl
  itemInj h hq he := by cases h; exact hs.itemInj rfl hq he
  sentLt := hs.sentLt
  retired hl hok := by
    rcases hs.retired hl hok with htx | hret
    · cases htx
    · exact Or.inr ⟨hret.1, by rintro k item ⟨⟩; exact hret.2 _ _ rfl⟩
  once := hs.once

theorem Ticketed.claimStep {now : ℕ} {m m' : ClaimMemory} {i : ClaimInput}
    (hs : Ticketed tickets m.queue m.chain pc) (h : ClaimStep now m i pc m' pc')
    (hseen : ∀ tx ∈ pc.givesUp i, ⟨tx, true⟩ ∉ m.chain.landed) : Ticketed tickets m'.queue m'.chain pc' := by
  -- a transaction that is given up, or was finalised with an error, was not finalised without one
  have gone : ∀ {tx : ClaimTx}, ⟨tx, true⟩ ∉ m.chain.landed → ∀ {l : Landed}, l ∈ m.chain.landed → l.ok = true →
      (some tx : Option ClaimTx) = some l.tx → False := by
    rintro tx hnot ⟨tx', ok⟩ hl rfl htx
    cases htx
    exact hnot hl
  cases h with
  | stay => exact hs
  | pick hq => exact hs.pick hq
  | build => exact hs.build
  | sent | resend => exact (hs.send rfl).samePc rfl rfl
  | @abandon tx attempts hmax =>
    have hnot : ⟨tx, true⟩ ∉ m.chain.landed := hseen tx (by simp [ClaimPc.givesUp, hmax])
    exact (hs.send rfl).toIdle id fun hl hok htx => (gone hnot hl hok htx).elim
  | @failed tx hfail =>
    have hnot : ⟨tx, true⟩ ∉ m.chain.landed := Broadcast.Chain.not_landed_of_failed hfail
    exact hs.toIdle id fun hl hok htx => (gone hnot hl hok htx).elim
  | @expire tx =>
    exact hs.toIdle id fun hl hok htx => (gone (hseen tx (by simp [ClaimPc.givesUp])) hl hok htx).elim
  | @remove tx =>
    refine hs.toIdle (fun h => (lookup_erase_cases h).2) fun hl hok htx k item hq => ?_
    obtain ⟨hne, hq'⟩ := lookup_erase_cases hq
    cases htx
    exact fun he => hne (hs.itemInj rfl hq' he)
  | drop => exact hs.toIdle (fun h => (lookup_erase_cases h).2) fun hl hok htx => by cases htx
  | _ => exact hs.samePc rfl rfl

theorem Ticketed.insert (hs : Ticketed tickets queue chain pc) (k : Pubkey) (receiver : Pubkey) (amount : UInt64) :
    Ticketed (tickets + 1) (queue.insert k ⟨receiver, amount, tickets⟩) chain pc := by
  have cases : ∀ {k' item}, (queue.insert k ⟨receiver, amount, tickets⟩).lookup k' = some item →
      (k' = k ∧ item.ticket = tickets) ∨ (queue.lookup k' = some item ∧ item.ticket < tickets) := by
    intro k' item h
    rcases lookup_insert_cases h with ⟨hk, rfl⟩ | ⟨-, h⟩
    · exact Or.inl ⟨hk, rfl⟩
    · exact Or.inr ⟨h, hs.queueLt h⟩
  refine ⟨fun h => ?_, fun h h' he => ?_, fun h => Nat.lt_succ_of_lt (hs.itemLt h), fun hi h he => ?_,
    fun h => Nat.lt_succ_of_lt (hs.sentLt h), fun {l} hl hok => ?_, hs.once⟩
  · rcases cases h with ⟨-, h⟩ | ⟨-, h⟩ <;> omega
  · rcases cases h with ⟨rfl, h⟩ | ⟨h, hlt⟩ <;> rcases cases h' with ⟨rfl, h'⟩ | ⟨h', hlt'⟩
    · rfl
    · omega
    · omega
    · exact hs.queueInj h h' he
  · have := hs.itemLt hi
    rcases cases h with ⟨-, h⟩ | ⟨h, -⟩
    · omega
    · exact hs.itemInj hi h he
  · refine (hs.retired hl hok).imp_right fun hret => ⟨fun k' item h => ?_, hret.2⟩
    have hlt := hs.sentLt (chain.landedSent l hl)
    rcases cases h with ⟨-, h⟩ | ⟨h, -⟩
    · omega
    · exact hret.1 _ _ h

theorem Ticketed.land (hs : Ticketed tickets queue chain pc) {tx : ClaimTx} {ok : Bool} {chain' : Chain}
    (h : chain.land? tx ok = some chain') (hcur : ok = true → pc.tx? = some tx) : Ticketed tickets queue chain' pc := by
  obtain ⟨-, hnew, -, hsent, hlanded⟩ := Broadcast.Chain.land?_eq_some h
  refine ⟨hs.queueLt, hs.queueInj, hs.itemLt, hs.itemInj, fun h => hs.sentLt (hsent ▸ h), fun hl hok => ?_,
    fun ticket => ?_⟩
  · rw [hlanded] at hl
    rcases List.mem_cons.1 hl with rfl | hl
    · exact Or.inl (hcur hok)
    · exact hs.retired hl hok
  · have hold := hs.once ticket
    unfold Chain.transfers at hold ⊢
    rw [hlanded, List.filter_cons]
    split
    · next h =>
      obtain ⟨hok, rfl⟩ : ok = true ∧ tx.item.ticket = ticket := by simpa using h
      -- an earlier transfer for the item would be the current transaction, or the item would be retired
      have hnone : (chain.landed.filter fun l => l.ok ∧ l.tx.item.ticket = tx.item.ticket) = [] := by
        refine List.filter_eq_nil_iff.2 fun l hl hmatch => ?_
        obtain ⟨hlok, hticket⟩ : l.ok = true ∧ l.tx.item.ticket = tx.item.ticket := by simpa using hmatch
        rcases hs.retired hl hlok with htx | hret
        · rw [hcur hok] at htx
          cases htx
          exact hnew l hl rfl
        · exact hret.2 _ _ (ClaimPc.item?_of_tx? (hcur hok)) hticket.symm
      rw [hnone]
      simp
    · exact hold

/-- The tickets of a treasury. -/
def TicketsKept (s : Treasury) : Prop := Ticketed s.tickets s.queue s.chain s.claim

theorem TicketsKept.step {su : Setup} {s s' : Treasury} {a : Action} (hs : s.TicketsKept) (hseen : s.LandingsSeen a)
    (h : Step su s a s') : s'.TicketsKept := by
  cases h with
  | insert _ => exact Ticketed.insert hs _ _ _
  | claim hstep => exact Ticketed.claimStep (m := ⟨s.db, s.queue, s.chain⟩) hs hstep hseen
  | land h => exact Ticketed.land hs h hseen
  | _ => exact hs

theorem Fresh.ticketsKept {s : Treasury} (h : s.Fresh) : s.TicketsKept := by
  obtain ⟨hq, hc, -, hp, -, -, -⟩ := h
  unfold TicketsKept
  rw [hq, hc, hp]
  exact ⟨by rintro _ _ ⟨⟩, by rintro _ _ _ _ ⟨⟩, by rintro _ _ ⟨⟩, by rintro _ _ _ _ ⟨⟩, by rintro _ ⟨⟩,
    by rintro _ ⟨⟩, fun _ => Nat.zero_le _⟩

/-- If no transaction that was given up is finalised, at most one transfer is finalised for each insertion. -/
theorem one_transfer_per_item (su : Setup) {s s' : Treasury} {as : List Action} (h0 : s.Fresh)
    (hseen : Along (step su) LandingsSeen s as) (h : run (step su) s as = some s') (ticket : ℕ) :
    (s'.chain.transfers ticket).length ≤ 1 :=
  (run_invariant (fun hs hC hstep => TicketsKept.step hs hC (step_sound hstep)) h0.ticketsKept hseen h).once ticket

/-- The transaction that `claim_system` builds in the examples for the insertion with this ticket. -/
def exampleTx (id ticket : ℕ) : ClaimTx := ⟨id, filled 7, ⟨filled 7, 5000000000, ticket⟩, false, 5000000000⟩

/-- A `claim_direct` request of the miner up to its insertion. -/
def directChecks (i : ℕ) : List Action :=
  [.requestStep i (.call .executed), .requestStep i (.call .executed), .requestStep i (.tokenAccount .uiAmount)]

/-- `claim_system` up to the send of a transaction. -/
def claimSend (tx : ClaimTx) : List Action :=
  [.claimStep (.pick tx.minerPubkey), .claimStep (.tokenAccount .uiAmount), .claimStep (.blockhash true),
    .claimStep (.send true)]

/-- The transaction is finalised, seen, and booked. -/
def claimBook (tx : ClaimTx) : List Action :=
  [.land tx true, .claimStep (.status (.finalized true))] ++ List.replicate 7 (.claimStep (.call .executed)) ++
    [.claimStep .remove]

/-- The server in the examples: one miner, with 5 BITZ. -/
def exampleStart : Treasury := start (Database.single (filled 7) 5000000000)

/-- One claim, from the request to its booking. -/
def oneClaim : List Action :=
  [.request (.direct (filled 7))] ++ directChecks 0 ++ [.requestStep 0 .insert] ++ claimSend (exampleTx 0 0) ++
    claimBook (exampleTx 0 0)

theorem one_transfer_per_item_example :
    ∃ s', run (step exampleSetup) exampleStart oneClaim = some s' ∧ (s'.chain.transfers 0).length ≤ 1 := by
  have hsome : (run (step exampleSetup) exampleStart oneClaim).isSome := by decide +kernel
  obtain ⟨s', h⟩ := Option.isSome_iff_exists.1 hsome
  exact ⟨s', h, one_transfer_per_item exampleSetup (start_fresh _) (by decide +kernel) h 0⟩

/-- The first transaction is not seen finalised within the 120 seconds; the item stays queued and is paid again. -/
theorem two_transfers :
    ∃ s', run (step exampleSetup) exampleStart ([.request (.direct (filled 7))] ++ directChecks 0 ++
      [.requestStep 0 .insert] ++ claimSend (exampleTx 0 0) ++ [.land (exampleTx 0 0) true, .claimStep .expire] ++
        claimSend (exampleTx 1 0) ++ [.land (exampleTx 1 0) true]) = some s' ∧
      (s'.chain.transfers 0).length = 2 :=
  exists_of_run (by decide +kernel)

end Treasury

end BitzPool
