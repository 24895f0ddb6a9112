import BitzPool.ClaimOnce

/-!
# The balance covers what is claimed

The handlers look at a balance, or a signed amount, several steps before they insert the item, and `claim_system`
debits the balance long after it has sent the transfer, without looking at it again.  In the runs in which no item
exceeds the balance at the moment of its insertion (`InsertionCovered`), and no transaction that was given up is
finalised, the balance covers every item that is sent, no debit falls below zero, and no miner is paid more than was
credited (`claims_covered`).
-/

namespace BitzPool

open Keyed Database Transition Update

/-- The transaction that was finalised and is being booked, from its debit on. -/
def ClaimPc.booking? : ClaimPc → Option ClaimTx
  | .poolClaimed tx _ _ | .addTxn tx _ _ | .getTxn tx _ _ | .addClaim tx _ | .remove tx => some tx
  | _ => none

/-- The transaction that was seen finalised. -/
def ClaimPc.seen? : ClaimPc → Option ClaimTx
  | .getMiner tx | .getPool tx _ | .decrease tx _ _ | .dead tx => some tx
  | pc => pc.booking?

/-- The transfers that were finalised for a miner. -/
def Chain.paid (c : Chain) (pubkey : Pubkey) : ℕ :=
  sumAt (fun l : Landed => l.tx.minerPubkey) (fun l => if l.ok then l.tx.claimAmount.toNat else 0) c.landed pubkey

/-- The transfer to a miner that was finalised and not debited yet. -/
def ClaimPc.undebited (pc : ClaimPc) (c : Chain) (pubkey : Pubkey) : ℕ :=
  match pc.tx? with
  | some tx =>
    if pc.booking? = none ∧ tx.minerPubkey = pubkey ∧ ⟨tx, true⟩ ∈ c.landed then tx.claimAmount.toNat else 0
  | none => 0

/-- What the current transaction, or the one about to be built, transfers, and the amount of its item. -/
def ClaimPc.price? : ClaimPc → Option (UInt64 × UInt64)
  | .blockhash _ item _ claimAmount => some (claimAmount, item.amount)
  | pc => pc.tx?.map fun tx => (tx.claimAmount, tx.item.amount)

/-! ### The invariant -/

namespace Treasury

/-- Queued items and the item in process are covered, except for a miner who is being debited; the debits, with the
transfer in process, cover what was paid; and the ledger adds up. -/
structure Covered (db : Database) (queue : ClaimsQueue) (chain : Chain) (pc : ClaimPc) : Prop where
  queue : ∀ {k item}, queue.lookup k = some item →
    item.amount.toNat ≤ db.balanceOf k ∨ ∃ tx, pc.booking? = some tx ∧ tx.minerPubkey = k
  item : ∀ {k item}, pc.booking? = none → pc.item? = some (k, item) → item.amount.toNat ≤ db.balanceOf k
  price : ∀ {p}, pc.price? = some p → p.1 ≤ p.2
  seen : ∀ {tx}, pc.seen? = some tx → ⟨tx, true⟩ ∈ chain.landed
  paid : ∀ k, chain.paid k ≤ db.debitedOf k + pc.undebited chain k
  accounted : db.Accounted

variable {db db' : Database} {queue : ClaimsQueue} {chain : Chain} {pc pc' : ClaimPc}

private theorem undebited_eq_zero {tx : ClaimTx} (htx : pc.tx? = some tx)
    (h : pc.booking? ≠ none ∨ ⟨tx, true⟩ ∉ chain.landed) (k : Pubkey) : pc.undebited chain k = 0 := by
  simp only [ClaimPc.undebited, htx]
  refine if_neg fun ⟨hb, _, hl⟩ => ?_
  rcases h with h | h
  · exact h hb
  · exact h hl

theorem Covered.grows (hs : Covered db queue chain pc) (h : db.Grows db') : Covered db' queue chain pc where
  queue hq := (hs.queue hq).imp_left fun hle => hle.trans (ofMiner_mono h.ext h.balance _)
  item hb hi := (hs.item hb hi).trans (ofMiner_mono h.ext h.balance _)
  price := hs.price
  seen := hs.seen
  paid k := by
    refine (hs.paid k).trans (Nat.add_le_add_right (ofMiner_mono h.ext (fun id => ?_) k) _)
    rw [debited, debited, h.debits]
  accounted := h.accounted hs.accounted

/-- Steps that stay with the item and its transaction. -/
private theorem Covered.samePc (hs : Covered db queue chain pc) (hitem : pc'.item? = pc.item?)
    (htx : pc'.tx? = pc.tx?) (hbook : pc'.booking? = pc.booking?) (hprice : ∀ {p}, pc'.price? = some p → p.1 ≤ p.2)
    (hseen : ∀ {tx}, pc'.seen? = some tx → ⟨tx, true⟩ ∈ chain.landed) : Covered db queue chain pc' where
  queue hq := by rw [hbook]; exact hs.queue hq
  item hb hi := hs.item (hbook ▸ hb) (hitem ▸ hi)
  price := hprice
  seen := hseen
  paid k := by
    have : pc'.undebited chain k = pc.undebited chain k := by simp only [ClaimPc.undebited, htx, hbook]
    rw [this]
    exact hs.paid k
  accounted := hs.accounted

/-- Going back to the top of the loop. -/
private theorem Covered.toIdle (hs : Covered db queue chain pc) {queue' : ClaimsQueue}
    (hq : ∀ {k item}, queue'.lookup k = some item → item.amount.toNat ≤ db.balanceOf k)
    (hzero : ∀ k, pc.undebited chain k = 0) : Covered db queue' chain .idle where
  queue h := Or.inl (hq h)
  item _ h := by cases h
  price h := by cases h
  seen h := by cases h
  paid k := by
    have := hs.paid k
    rw [hzero] at this
    exact this.trans (Nat.le_add_right _ _)
  accounted := hs.accounted

private theorem Covered.build {miner : Pubkey} {item : ClaimsQueueItem} {createsAta : Bool} {claimAmount : UInt64}
    (hs : Covered db queue chain (.blockhash miner item createsAta claimAmount)) :
    Covered db queue chain.build (.send ⟨chain.nextTx, miner, item, createsAta, claimAmount⟩ 0) where
  queue := hs.queue
  item _ h := by cases h; exact hs.item rfl rfl
  price h := by cases h; exact hs.price rfl
  seen h := by cases h
  paid k := (hs.paid k).trans (Nat.add_le_add_left (Nat.zero_le _) _)
  accounted := hs.accounted

/-- The debit: it takes the amount that covered the item from the balance, and makes up for the transfer. -/
private theorem Covered.decrease {tx : ClaimTx} {id : MinerId} {poolId : RowId}
    (hs : Covered db queue chain (.decrease tx id poolId)) {miner : Miner}
    (hminer : db.miners.find? tx.minerPubkey = some miner) (hid : miner.id = id) (hhas : db.rewards.Has id)
    (hq : decreaseQuery ⟨id, tx.item.amount⟩ db = some ((), db')) :
    Covered db' queue chain (.poolClaimed tx id poolId) := by
  obtain ⟨-, hbal, -, -, he⟩ := decreaseQuery_spec hhas hq
  have hminers : db'.miners = db.miners := by rw [he]
  have hdebited : ∀ id', db'.debited id' = (if id = id' then tx.item.amount.toNat else 0) + db.debited id' :=
    debited_of_decrease hhas hq
  have hprice : tx.claimAmount.toNat ≤ tx.item.amount.toNat := UInt64.le_iff_toNat_le.1 (hs.price rfl)
  have hseen : ⟨tx, true⟩ ∈ chain.landed := hs.seen rfl
  refine ⟨fun {k item} hk => ?_, by rintro k item ⟨⟩, hs.price, hs.seen, fun k => ?_,
    accounted_of_decrease hhas hq hs.accounted⟩
  · by_cases hkey : tx.minerPubkey = k
    · exact Or.inr ⟨tx, rfl, hkey⟩
    refine Or.inl ?_
    rcases hs.queue hk with hle | ⟨_, ⟨⟩, _⟩
    refine hle.trans ?_
    rcases hfind : db.miners.find? k with _ | m
    · simp [balanceOf, hfind]
    · rw [balanceOf_eq_ofMiner, balanceOf_eq_ofMiner, ofMiner_of_find? hfind,
        ofMiner_of_find? (hminers ▸ hfind)]
      have hne : id ≠ m.id := fun h => hkey (pubkey_of_id hminer hfind (hid.trans h))
      have := hbal m.id
      rw [if_neg hne, Nat.add_zero] at this
      exact this.ge
  · have hpaid := hs.paid k
    have hund : (ClaimPc.poolClaimed tx id poolId).undebited chain k = 0 :=
      undebited_eq_zero rfl (Or.inl (by simp [ClaimPc.booking?])) k
    rw [hund]
    rcases hfind : db.miners.find? k with _ | m
    · -- an unknown pubkey is not the one being paid
      have hne : tx.minerPubkey ≠ k := by
        rintro rfl
        rw [hminer] at hfind
        cases hfind
      simp only [ClaimPc.undebited, ClaimPc.tx?, hne, false_and, and_false, if_false] at hpaid
      exact hpaid.trans (by simp [debitedOf, ofMiner, hfind])
    · rw [debitedOf, ofMiner_of_find? hfind] at hpaid
      rw [debitedOf, ofMiner_of_find? (hminers ▸ hfind), hdebited]
      simp only [ClaimPc.undebited, ClaimPc.tx?, ClaimPc.booking?, true_and] at hpaid
      by_cases hkey : tx.minerPubkey = k
      · have hm : id = m.id := by
          rw [← hkey, hminer] at hfind
          cases hfind
          exact hid.symm
        rw [if_pos ⟨hkey, hseen⟩] at hpaid
        rw [if_pos hm]
        omega
      · rw [if_neg fun h => hkey h.1] at hpaid
        omega

theorem Covered.claimStep {now : ℕ} {m m' : ClaimMemory} {i : ClaimInput} (hs : Covered m.db m.queue m.chain pc)
    (hitem : ∀ {k item}, pc.item? = some (k, item) → m.db.Registered k)
    (hminer : ∀ {k id}, pc.miner? = some (k, id) → ∃ miner, m.db.miners.find? k = some miner ∧ miner.id = id)
    (h : ClaimStep now m i pc m' pc') (hseen : ∀ tx ∈ pc.givesUp i, ⟨tx, true⟩ ∉ m.chain.landed) :
    Covered m'.db m'.queue m'.chain pc' := by
  have hleft : pc.booking? = none → ∀ {k item}, m.queue.lookup k = some item →
      item.amount.toNat ≤ m.db.balanceOf k := by
    intro hb k item hq
    rcases hs.queue hq with hle | ⟨tx, htx, -⟩
    · exact hle
    · rw [hb] at htx
      cases htx
  have hgrows := grows_of_claimStep h
  cases h with
  | stay => exact hs
  | pick hq =>
    exact ⟨hs.queue, by rintro k item - ⟨⟩; exact hleft rfl hq, by rintro p ⟨⟩, by rintro tx ⟨⟩, hs.paid, hs.accounted⟩
  | price hp => exact hs.samePc rfl rfl rfl (by rintro p ⟨⟩; exact le_of_priceOf hp) (by rintro tx ⟨⟩)
  | insufficient | noBlockhash => exact hs.samePc rfl rfl rfl (by rintro p ⟨⟩) (by rintro tx ⟨⟩)
  | build => exact Covered.build hs
  | sent | resend => exact ⟨hs.queue, hs.item, hs.price, by rintro tx ⟨⟩, hs.paid, hs.accounted⟩
  | @abandon tx attempts hmax =>
    have hnot : ⟨tx, true⟩ ∉ m.chain.landed := hseen tx (by simp [ClaimPc.givesUp, hmax])
    obtain ⟨h1, h2, h3, h4, h5, h6⟩ := hs.toIdle (hleft rfl) (undebited_eq_zero rfl (Or.inr hnot))
    exact ⟨h1, h2, h3, by rintro tx ⟨⟩, h5, h6⟩
  | @failed tx hfail =>
    exact hs.toIdle (hleft rfl) (undebited_eq_zero rfl (Or.inr (Broadcast.Chain.not_landed_of_failed hfail)))
  | @expire tx =>
    exact hs.toIdle (hleft rfl) (undebited_eq_zero rfl (Or.inr (hseen tx (by simp [ClaimPc.givesUp]))))
  | finalized hl => exact hs.samePc rfl rfl rfl hs.price (by rintro tx ⟨⟩; exact hl)
  | gotMiner | noMiner | gotPool | noPool => exact hs.samePc rfl rfl rfl hs.price hs.seen
  | decrease hq =>
    obtain ⟨miner, hfind, hid⟩ := hminer rfl
    obtain ⟨miner', hfind', hhas⟩ := registered_iff.1 (hitem rfl)
    rw [hfind] at hfind'
    cases hfind'
    exact hs.decrease hfind hid (hid ▸ hhas) hq
  | poolClaimed | addTxn | addClaim =>
    exact (hs.grows (hgrows fun _ _ _ => by simp)).samePc rfl rfl rfl hs.price hs.seen
  | gotTxn => exact hs.samePc rfl rfl rfl hs.price hs.seen
  | @remove tx =>
    refine hs.toIdle (fun {k item} hk => ?_) (undebited_eq_zero rfl (Or.inl (by simp [ClaimPc.booking?])))
    obtain ⟨hne, hk'⟩ := lookup_erase_cases hk
    rcases hs.queue hk' with hle | ⟨_, ⟨⟩, h⟩
    · exact hle
    · exact absurd h.symm hne
  | drop => exact hs.toIdle (fun hk => hleft rfl (lookup_erase_cases hk).2) fun _ => rfl

theorem Covered.insert (hs : Covered db queue chain pc) {k receiver : Pubkey} {amount : UInt64} {ticket : ℕ}
    (hle : amount.toNat ≤ db.balanceOf k) : Covered db (queue.insert k ⟨receiver, amount, ticket⟩) chain pc where
  queue {k' item} h := by
    rcases lookup_insert_cases h with ⟨rfl, rfl⟩ | ⟨-, h⟩
    · exact Or.inl hle
    · exact hs.queue h
  item := hs.item
  price := hs.price
  seen := hs.seen
  paid := hs.paid
  accounted := hs.accounted

theorem Covered.land (hs : Covered db queue chain pc) {tx : ClaimTx} {ok : Bool} {chain' : Chain}
    (h : chain.land? tx ok = some chain') (hcur : ok = true → pc.tx? = some tx) : Covered db queue chain' pc := by
  obtain ⟨-, hnew, -, -, hlanded⟩ := Broadcast.Chain.land?_eq_some h
  have hnot : ⟨tx, true⟩ ∉ chain.landed := fun h => hnew _ h rfl
  refine ⟨hs.queue, hs.item, hs.price, fun hseen => ?_, fun k => ?_, hs.accounted⟩
  · rw [hlanded]
    exact List.mem_cons_of_mem _ (hs.seen hseen)
  · have hold := hs.paid k
    have hcons : Chain.paid chain' k =
        (if tx.minerPubkey = k then if ok then tx.claimAmount.toNat else 0 else 0) + chain.paid k := by
      rw [Chain.paid, hlanded]
      exact sumAt_cons _ _ _
    rw [hcons]
    cases ok with
    | false =>
      have hund : pc.undebited chain' k = pc.undebited chain k := by simp [ClaimPc.undebited, hlanded]
      rw [hund]
      simpa using hold
    | true =>
      have htx := hcur rfl
      -- a transaction that is being booked was finalised before
      have hbook : pc.booking? = none := by
        rcases hb : pc.booking? with _ | tx'
        · rfl
        · have he : pc.tx? = some tx' := by cases pc <;> cases hb <;> rfl
          have hseen : pc.seen? = some tx' := by cases pc <;> cases hb <;> rfl
          rw [htx] at he
          cases he
          exact absurd (hs.seen hseen) hnot
      have h0 : pc.undebited chain k = 0 := undebited_eq_zero htx (Or.inr hnot) k
      simp only [ClaimPc.undebited, htx, hbook, hlanded, List.mem_cons, true_or, true_and, and_true, if_true]
      split <;> omega

/-! ### Runs -/

/-- What a step puts into the queue. -/
def insertion (s : Treasury) : Action → Option Insertion
  | .requestStep i .insert =>
    match s.requests[i]? with
    | some (.insert ins _) => some ins
    | _ => none
  | _ => none

theorem insertion_of_insert {s : Treasury} {i : ℕ} {ins : Insertion} {answer : Response}
    (hpc : s.requests[i]? = some (.insert ins answer)) : s.insertion (.requestStep i .insert) = some ins := by
  simp only [insertion, hpc]

/-- Only a handler that stands before its insertion inserts. -/
theorem exists_of_insertion {s : Treasury} {a : Action} {ins : Insertion} (h : s.insertion a = some ins) :
    ∃ i answer, a = .requestStep i .insert ∧ s.requests[i]? = some (.insert ins answer) := by
  unfold insertion at h
  split at h
  · next i =>
    split at h
    · next ins' answer hpc =>
      cases h
      exact ⟨i, answer, rfl, hpc⟩
    · cases h
  · cases h

theorem insertion_of_check {s : Treasury} {db : Database} {queue : ClaimsQueue} {now i : ℕ} {input : RequestInput}
    {pc pc' : RequestPc} (hpc : s.requests[i]? = some pc) (h : RequestStep db queue now input pc pc' none) :
    s.insertion (.requestStep i input) = none := by
  cases h with
  | refuse hne =>
    cases input with
    | insert =>
      simp only [insertion, hpc]
      split
      · next he =>
        cases he
        exact absurd rfl (hne _ _)
      · rfl
    | _ => rfl
  | _ => rfl

/-- An item does not exceed the balance when it is inserted. -/
def InsertionCovered (s : Treasury) (a : Action) : Prop :=
  ∀ ins ∈ s.insertion a, ins.amount.toNat ≤ s.db.balanceOf ins.minerPubkey

instance (s : Treasury) (a : Action) : Decidable (s.InsertionCovered a) :=
  inferInstanceAs (Decidable (∀ ins ∈ s.insertion a, ins.amount.toNat ≤ s.db.balanceOf ins.minerPubkey))

/-- The invariant of the runs under the two conditions. -/
structure Safe (s : Treasury) : Prop where
  known : s.Known
  covered : Covered s.db s.queue s.chain s.claim

theorem Safe.step {su : Setup} {s s' : Treasury} {a : Action} (hs : s.Safe) (hseen : s.LandingsSeen a)
    (hins : s.InsertionCovered a) (h : Step su s a s') : s'.Safe := by
  refine ⟨hs.known.step h, ?_⟩
  cases h with
  | insert hpc =>
    exact hs.covered.insert (hins _ (by simp [insertion, hpc]))
  | claim hstep =>
    exact Covered.claimStep (m := ⟨s.db, s.queue, s.chain⟩) hs.covered hs.known.claim hs.known.miner hstep hseen
  | land h => exact hs.covered.land h hseen
  | payout _ hstep => exact hs.covered.grows (grows_of_payoutStep hstep)
  | mineCall hstep => exact hs.covered.grows (grows_of_mineStep hstep)
  | signup => exact hs.covered.grows (grows_of_signup ..)
  | _ => exact hs.covered

theorem Fresh.safe {s : Treasury} (h : s.Fresh) (hacc : s.db.Accounted) : s.Safe := by
  refine ⟨h.known, ?_⟩
  rw [h.queue, h.chain, h.claim]
  exact ⟨by rintro k item ⟨⟩, by rintro k item - ⟨⟩, by rintro p ⟨⟩, by rintro tx ⟨⟩, fun k => Nat.zero_le _, hacc⟩

/-- What was paid to a miner never exceeds what was credited. -/
theorem Safe.paid_le_credited {s : Treasury} (hs : s.Safe) (k : Pubkey) : s.chain.paid k ≤ s.db.creditedOf k := by
  have hpaid := hs.covered.paid k
  rcases htx : s.claim.tx? with _ | tx
  · simp only [ClaimPc.undebited, htx, Nat.add_zero] at hpaid
    refine hpaid.trans (ofMiner_mono (.refl _) (fun id => ?_) k)
    have := hs.covered.accounted id
    omega
  · by_cases hund : s.claim.booking? = none ∧ tx.minerPubkey = k ∧ ⟨tx, true⟩ ∈ s.chain.landed
    · simp only [ClaimPc.undebited, htx] at hpaid
      rw [if_pos hund] at hpaid
      obtain ⟨hbook, rfl, -⟩ := hund
      have hitem := ClaimPc.item?_of_tx? htx
      have hprice : tx.claimAmount.toNat ≤ tx.item.amount.toNat := by
        refine UInt64.le_iff_toNat_le.1 (hs.covered.price (p := (tx.claimAmount, tx.item.amount)) ?_)
        revert htx
        cases s.claim <;> rintro ⟨⟩ <;> rfl
      have hle := hs.covered.item hbook hitem
      obtain ⟨m, hm, -⟩ := registered_iff.1 (hs.known.claim hitem)
      have hacc := hs.covered.accounted m.id
      rw [balanceOf_eq_ofMiner, ofMiner_of_find? hm] at hle
      rw [debitedOf, ofMiner_of_find? hm] at hpaid
      rw [creditedOf, ofMiner_of_find? hm]
      omega
    · simp only [ClaimPc.undebited, htx] at hpaid
      rw [if_neg hund, Nat.add_zero] at hpaid
      refine hpaid.trans (ofMiner_mono (.refl _) (fun id => ?_) k)
      have := hs.covered.accounted id
      omega

/-- In the runs in which no item exceeds the balance when it is inserted, and no transaction that was given up is
finalised: the balance covers every item whose transaction is sent, every debit is covered, and no miner is paid more
than was credited. -/
theorem claims_covered (su : Setup) {s s' : Treasury} {as : List Action} (h0 : s.Fresh) (hacc : s.db.Accounted)
    (hC : Along (step su) (fun s a => s.LandingsSeen a ∧ s.InsertionCovered a) s as)
    (h : run (step su) s as = some s') :
    (∀ tx attempts, s'.claim = .send tx attempts → tx.item.amount.toNat ≤ s'.db.balanceOf tx.minerPubkey) ∧
      (∀ tx id poolId, s'.claim = .decrease tx id poolId → tx.item.amount.toNat ≤ s'.db.balance id) ∧
      ∀ k, s'.chain.paid k ≤ s'.db.creditedOf k := by
  have hs : s'.Safe := run_invariant (fun hs hC hstep => hs.step hC.1 hC.2 (step_sound hstep)) (h0.safe hacc) hC h
  refine ⟨fun tx attempts hpc => ?_, fun tx id poolId hpc => ?_, hs.paid_le_credited⟩
  · exact hs.covered.item (by rw [hpc]; rfl) (by rw [hpc]; rfl)
  · have hle : tx.item.amount.toNat ≤ s'.db.balanceOf tx.minerPubkey :=
      hs.covered.item (by rw [hpc]; rfl) (by rw [hpc]; rfl)
    obtain ⟨m, hm, rfl⟩ : ∃ m, s'.db.miners.find? tx.minerPubkey = some m ∧ m.id = id :=
      hs.known.miner (by rw [hpc]; rfl)
    rwa [balanceOf_eq_ofMiner, ofMiner_of_find? hm] at hle

theorem single_accounted (pubkey : Pubkey) (balance : UInt64) : (Database.single pubkey balance).Accounted := by
  intro id
  by_cases h : id = 1
  · subst h
    rfl
  · have h' : (1 : MinerId) ≠ id := Ne.symm h
    simp [Database.balance, debited, credited, batchSum, sumAt_cons, Database.single, Table.value, Table.find?, h']

theorem claims_covered_example :
    ∃ s', run (step exampleSetup) exampleStart oneClaim = some s' ∧
      s'.chain.paid (filled 7) ≤ s'.db.creditedOf (filled 7) := by
  have hsome : (run (step exampleSetup) exampleStart oneClaim).isSome := by decide +kernel
  obtain ⟨s', h⟩ := Option.isSome_iff_exists.1 hsome
  exact ⟨s', h, (claims_covered exampleSetup (start_fresh _) (single_accounted _ _) (by decide +kernel) h).2.2 _⟩

/-- Two `claim_direct` requests of one miner: the second reads the balance before the first is booked, and inserts
its item after. -/
def overdraw : List Action :=
  [.request (.direct (filled 7)), .request (.direct (filled 7))] ++ directChecks 0 ++ directChecks 1 ++
    [.requestStep 0 .insert] ++ claimSend (exampleTx 0 0) ++ claimBook (exampleTx 0 0) ++
    [.requestStep 1 .insert] ++ (claimSend (exampleTx 1 1)).dropLast

/-- The second item is sent from an empty balance, and then paid, beyond what the miner was credited. -/
theorem claims_not_covered :
    (∃ s', run (step exampleSetup) exampleStart overdraw = some s' ∧
      s'.claim = .send (exampleTx 1 1) 0 ∧ s'.db.balanceOf (filled 7) = 0) ∧
    ∃ s', run (step exampleSetup) exampleStart
        (overdraw ++ [.claimStep (.send true), .land (exampleTx 1 1) true]) = some s' ∧
      s'.db.creditedOf (filled 7) < s'.chain.paid (filled 7) :=
  ⟨exists_of_run (by decide +kernel), exists_of_run (by decide +kernel)⟩

end Treasury

end BitzPool
