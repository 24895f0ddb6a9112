import BitzPool.ClaimCover

/-!
# A finalised claim is booked

When `claim_system` sees a claim transaction finalised, it looks up the miner and the pool, and then debits the balance,
adds to the pool's total, inserts a row in `txns`, reads its id, and inserts a row in `claims` linked to it; only then it
removes the item from the queue.  The four writes and the read of the id are repeated until they succeed.  The two
lookups before them are unwrapped: an error of one of them ends the task with the payment on the chain and nothing in
the ledger (`finalised_not_booked`).

`Books` relates the ledger to the transactions seen finalised in every state of every run; `claims_booked` is what
follows when the two lookups succeed.
-/

namespace BitzPool

open Keyed Database Transition

/-! ### What is written for a claim -/

/-- A booked claim: its transaction, and its row in `claims`. -/
structure Booking where
  tx : ClaimTx
  row : ClaimRow

/-- The row of a claim transaction in `txns`. -/
def ClaimTx.txn (tx : ClaimTx) : InsertTxn := ⟨"claim", tx.id, 0⟩

def Booking.debit (b : Booking) : UpdateReward := ⟨b.row.minerId, b.tx.item.amount⟩

namespace Database

/-- The claims added to the pool's total. -/
def poolClaimed (db : Database) : ℕ :=
  match db.pool with
  | some p => p.claimedRewards.toNat
  | none => 0

theorem poolClaimed_of_some {db : Database} {p : Pool} (h : db.pool = some p) :
    db.poolClaimed = p.claimedRewards.toNat := by
  simp only [poolClaimed, h]

/-- The row is for the miner and the amount of the transaction, and linked to the transaction's row in `txns`. -/
structure Links (db : Database) (tx : ClaimTx) (claim : InsertClaim) : Prop where
  miner : ∃ m, db.miners.find? tx.minerPubkey = some m ∧ m.id = claim.minerId
  amount : claim.amount = tx.item.amount
  txn : ∃ row, db.txns[claim.txnId - 1]? = some row ∧ row.signature = tx.id

theorem Links.mono {db db' : Database} {tx : ClaimTx} {claim : InsertClaim} (h : db.Links tx claim)
    (hext : db.Extends db') (htxns : db.txns <+: db'.txns) : db'.Links tx claim where
  miner := by
    obtain ⟨m, hm, hid⟩ := h.miner
    exact ⟨m, hext.miner hm, hid⟩
  amount := h.amount
  txn := by
    obtain ⟨row, hrow, hsig⟩ := h.txn
    obtain ⟨rest, hrest⟩ := htxns
    refine ⟨row, ?_, hsig⟩
    rw [← hrest, List.getElem?_append_left (List.getElem?_eq_some_iff.1 hrow).1, hrow]

/-- What bookings write is the same. -/
structure SameBooks (db db' : Database) : Prop where
  ext : db.Extends db'
  debits : db'.debits = db.debits
  pool : db'.poolClaimed = db.poolClaimed
  txns : db'.txns = db.txns
  claims : db'.claims = db.claims

theorem SameBooks.refl (db : Database) : db.SameBooks db := ⟨.refl db, rfl, rfl, rfl, rfl⟩

theorem SameLedger.sameBooks {db db' : Database} (h : db.SameLedger db') (htxns : db'.txns = db.txns) :
    db.SameBooks db' :=
  ⟨h.extends, h.debits, by rw [poolClaimed, poolClaimed, h.pool], htxns, h.claims⟩

end Database

private theorem sameBooks_of_updateRewards {o : CallOutcome} {batch : List UpdateReward} {db db' : Database}
    (h : updateRewards o batch db = (.ok (), db')) : db.SameBooks db' := by
  have hext := (grows_of_updateRewards h).ext
  rcases updateRewards_ok h with ⟨-, rfl⟩ | ⟨-, hq⟩
  · exact .refl _
  · obtain ⟨-, -, he⟩ := updateRewardsQuery_spec hq
    exact ⟨hext, by rw [he], by rw [he]; rfl, by rw [he], by rw [he]⟩

theorem sameBooks_of_payoutStep {cfg : Config} {r : Round} {db db' : Database} {i : PayoutInput} {pc pc' : PayoutPc}
    {msgs : List MessageInternalMineSuccess} (h : PayoutStep cfg r db i pc db' pc' msgs) : db.SameBooks db' := by
  cases h with
  | other hl _ _ htxns => exact hl.sameBooks htxns
  | credit h => exact sameBooks_of_updateRewards h
  | send => exact .refl _

theorem sameBooks_of_mineStep {o : CallOutcome} {db db' : Database} {t t' : MineTask} (h : MineStep o db t db' t') :
    db.SameBooks db' := by
  cases h with
  | stuck => exact .refl _
  | other hl _ _ htxns => exact hl.sameBooks htxns
  | earnings => exact ⟨.of_eq rfl rfl, rfl, rfl, rfl, rfl⟩
  | credit h => exact sameBooks_of_updateRewards h
  | pool h =>
    rcases updatePoolRewards_ok h with ⟨-, rfl⟩ | ⟨p, p', hp, -, hclaimed, rfl⟩
    · exact .refl _
    · refine ⟨.of_eq rfl rfl, rfl, ?_, rfl, rfl⟩
      rw [poolClaimed_of_some hp, ← hclaimed]
      exact poolClaimed_of_some rfl

theorem sameBooks_of_signup (o : CallOutcome) (id : MinerId) (pubkey : Pubkey) (db : Database) :
    db.SameBooks (signupUserTransaction o id pubkey db).2 := by
  obtain ⟨hext, -, -, hpool, -, hclaims, -, hdebits⟩ := signupUserTransaction_spec o id pubkey db
  exact ⟨hext, hdebits, by rw [Database.poolClaimed, Database.poolClaimed, hpool], signupUserTransaction_txns o id pubkey db,
    hclaims⟩

/-! ### A claim half booked -/

namespace ClaimPc

/-- The transaction that was seen finalised and has no row in `claims` yet. -/
def unbooked? : ClaimPc → Option ClaimTx
  | .remove _ => none
  | pc => pc.seen?

/-- Its debit, when that is made. -/
def debits : ClaimPc → List UpdateReward
  | .poolClaimed tx id _ | .addTxn tx id _ | .getTxn tx id _ => [⟨id, tx.item.amount⟩]
  | .addClaim tx claim => [⟨claim.minerId, tx.item.amount⟩]
  | _ => []

/-- What it has added to the pool's total. -/
def pooled : ClaimPc → ℕ
  | .addTxn tx _ _ | .getTxn tx _ _ | .addClaim tx _ => tx.item.amount.toNat
  | _ => 0

/-- Its row in `txns`, when that is inserted. -/
def txns : ClaimPc → List InsertTxn
  | .getTxn tx _ _ | .addClaim tx _ => [tx.txn]
  | _ => []

/-- The calls until it is booked. -/
def callsLeft : ClaimPc → ℕ
  | .getMiner _ => 7
  | .getPool _ _ => 6
  | .decrease _ _ _ => 5
  | .poolClaimed _ _ _ => 4
  | .addTxn _ _ _ => 3
  | .getTxn _ _ _ => 2
  | .addClaim _ _ => 1
  | _ => 0

end ClaimPc

namespace Treasury

/-- The ledger has the bookings, once each, on top of what it had: the debits, the pool's total, and the two rows. -/
structure Booked (db₀ db : Database) (bookings : List Booking) : Prop where
  debits : db.debits = (bookings.map Booking.debit).reverse ++ db₀.debits
  pool : db.poolClaimed = db₀.poolClaimed + (bookings.map fun b => b.tx.item.amount.toNat).sum
  txns : db.txns = db₀.txns ++ bookings.map fun b => b.tx.txn
  claims : db.claims = db₀.claims ++ bookings.map Booking.row
  links : ∀ b ∈ bookings, db.Links b.tx b.row.toInsertClaim

/-- The same in every state: the transactions seen finalised are the booked ones and the one in process, for which the
ledger has what its stage says. -/
structure Books (db₀ db : Database) (pc : ClaimPc) (seen : List ClaimTx) (bookings : List Booking) : Prop where
  seen : seen = bookings.map Booking.tx ++ pc.unbooked?.toList
  debits : db.debits = pc.debits ++ ((bookings.map Booking.debit).reverse ++ db₀.debits)
  pool : db.poolClaimed = db₀.poolClaimed + (bookings.map fun b => b.tx.item.amount.toNat).sum + pc.pooled
  txns : db.txns = db₀.txns ++ (bookings.map fun b => b.tx.txn) ++ pc.txns
  claims : db.claims = db₀.claims ++ bookings.map Booking.row
  links : ∀ b ∈ bookings, db.Links b.tx b.row.toInsertClaim
  current : ∀ {tx claim}, pc = .addClaim tx claim → db.Links tx claim
  last : ∀ {tx}, pc = .remove tx → ∃ b, bookings.getLast? = some b ∧ b.tx = tx

variable {db₀ db db' : Database} {pc pc' : ClaimPc} {seen : List ClaimTx} {bookings : List Booking}

theorem Books.start (db : Database) : Books db db .idle [] [] where
  seen := rfl
  debits := rfl
  pool := rfl
  txns := by simp [ClaimPc.txns]
  claims := by simp
  links b hb := by cases hb
  current h := by cases h
  last h := by cases h

theorem Books.booked (h : Books db₀ db pc seen bookings) (hpc : pc.unbooked? = none) :
    seen = bookings.map Booking.tx ∧ Booked db₀ db bookings := by
  obtain ⟨hseen, hdebits, hpool, htxns, hclaims, hlinks, -, -⟩ := h
  have hnone : pc.debits = [] ∧ pc.pooled = 0 ∧ pc.txns = [] := by cases pc <;> first | exact ⟨rfl, rfl, rfl⟩ | cases hpc
  rw [hpc] at hseen
  rw [hnone.1] at hdebits
  rw [hnone.2.1] at hpool
  rw [hnone.2.2] at htxns
  simp only [Option.toList_none, List.append_nil, List.nil_append, Nat.add_zero] at hseen hdebits hpool htxns
  exact ⟨hseen, hdebits, hpool, htxns, hclaims, hlinks⟩

/-! ### Steps -/

/-- Steps of the other tasks. -/
theorem Books.same (h : Books db₀ db pc seen bookings) (hdb : db.SameBooks db') : Books db₀ db' pc seen bookings where
  seen := h.seen
  debits := hdb.debits.trans h.debits
  pool := hdb.pool.trans h.pool
  txns := hdb.txns.trans h.txns
  claims := hdb.claims.trans h.claims
  links b hb := (h.links b hb).mono hdb.ext (hdb.txns ▸ List.prefix_refl _)
  current hpc := (h.current hpc).mono hdb.ext (hdb.txns ▸ List.prefix_refl _)
  last := h.last

/-- Steps of `claim_system` that write nothing. -/
private theorem Books.move (h : Books db₀ db pc seen bookings) (hunbooked : pc'.unbooked? = pc.unbooked?)
    (hdebits : pc'.debits = pc.debits) (hpooled : pc'.pooled = pc.pooled) (htxns : pc'.txns = pc.txns)
    (hcurrent : ∀ {tx claim}, pc' = .addClaim tx claim → db.Links tx claim)
    (hlast : ∀ {tx}, pc' ≠ .remove tx) : Books db₀ db pc' seen bookings where
  seen := hunbooked ▸ h.seen
  debits := hdebits ▸ h.debits
  pool := hpooled ▸ h.pool
  txns := htxns ▸ h.txns
  claims := h.claims
  links := h.links
  current := hcurrent
  last hpc := absurd hpc hlast

section Bookings

variable {tx : ClaimTx} {minerId : MinerId} {poolId : RowId}

private theorem Books.debit (h : Books db₀ db (.decrease tx minerId poolId) seen bookings)
    (hhas : db.rewards.Has minerId) (hq : decreaseQuery ⟨minerId, tx.item.amount⟩ db = some ((), db')) :
    Books db₀ db' (.poolClaimed tx minerId poolId) seen bookings := by
  have hext := extends_of_decrease hq
  obtain ⟨-, -, -, -, he⟩ := decreaseQuery_spec hhas hq
  have hdebits : db'.debits = ⟨minerId, tx.item.amount⟩ :: db.debits := by rw [he]
  have htxns : db'.txns = db.txns := by rw [he]
  refine ⟨h.seen, ?_, ?_, ?_, ?_, fun b hb => (h.links b hb).mono hext ?_, by rintro _ _ ⟨⟩, by rintro _ ⟨⟩⟩
  · rw [hdebits]
    exact congrArg _ h.debits
  · rw [he]
    exact h.pool
  · rw [htxns]
    exact h.txns
  · rw [he]
    exact h.claims
  · exact htxns ▸ List.prefix_refl _

/-- The row in `claims` completes the booking. -/
private theorem Books.book {claim : InsertClaim} {now : ℕ} (h : Books db₀ db (.addClaim tx claim) seen bookings) :
    Books db₀ { db with claims := db.claims ++ [{ claim with createdAt := now }] } (.remove tx) seen
      (bookings ++ [⟨tx, { claim with createdAt := now }⟩]) := by
  have hpool := h.pool
  refine ⟨?_, ?_, ?_, ?_, ?_, fun b hb => ?_, by rintro _ _ ⟨⟩, ?_⟩
  · rw [h.seen, List.map_append]
    exact (List.append_nil _).symm
  · rw [List.map_append, List.reverse_append]
    exact h.debits
  · rw [List.map_append, List.sum_append]
    simp only [ClaimPc.pooled, List.map_cons, List.map_nil, List.sum_cons, List.sum_nil] at hpool ⊢
    rw [← Nat.add_assoc]
    exact hpool
  · rw [List.map_append, ← List.append_assoc]
    exact h.txns.trans (List.append_nil _).symm
  · rw [List.map_append, ← List.append_assoc, ← h.claims]
    rfl
  · rcases List.mem_append.1 hb with hb | hb
    · exact (h.links b hb).mono (.of_eq rfl rfl) (List.prefix_refl _)
    · rw [List.mem_singleton.1 hb]
      exact (h.current rfl).mono (.of_eq rfl rfl) (List.prefix_refl _)
  · rintro _ ⟨⟩
    exact ⟨_, List.getLast?_concat, rfl⟩

end Bookings

/-- The transaction that a step sees finalised. -/
def sees (s : Treasury) : Action → Option ClaimTx
  | .claimStep (.status (.finalized true)) =>
    match s.claim with
    | .poll tx => some tx
    | _ => none
  | _ => none

/-- An observer of the transactions that are seen finalised. -/
def watchSeen (s : Treasury) (a : Action) (seen : List ClaimTx) : List ClaimTx := seen ++ (s.sees a).toList

private theorem watchSeen_quiet {s : Treasury} {input : ClaimInput} (h : input ≠ .status (.finalized true)) :
    s.watchSeen (.claimStep input) seen = seen := by
  have hnone : s.sees (.claimStep input) = none := by
    unfold sees
    split
    · next he =>
      cases he
      exact absurd rfl h
    · rfl
  rw [watchSeen, hnone]
  exact List.append_nil _

private theorem watchSeen_finalized {s : Treasury} {tx : ClaimTx} (h : s.claim = .poll tx) :
    s.watchSeen (.claimStep (.status (.finalized true))) seen = seen ++ [tx] := by
  simp [watchSeen, sees, h]

theorem Books.claimStep {s : Treasury} {input : ClaimInput} {m : ClaimMemory} (hs : s.Known)
    (h : Books db₀ s.db s.claim seen bookings)
    (hstep : ClaimStep s.now ⟨s.db, s.queue, s.chain⟩ input s.claim m pc) :
    ∃ bookings', Books db₀ m.db pc (s.watchSeen (.claimStep input) seen) bookings' := by
  generalize hpc : s.claim = pc₀ at h hstep
  cases hstep with
  | @stay _ _ _ hretry =>
    refine ⟨bookings, ?_⟩
    rw [watchSeen_quiet (by rintro rfl; simp at hretry)]
    exact h
  | @finalized tx =>
    refine ⟨bookings, ⟨?_, h.debits, h.pool, h.txns, h.claims, h.links, by rintro _ _ ⟨⟩, by rintro _ ⟨⟩⟩⟩
    rw [watchSeen_finalized hpc, h.seen, List.append_assoc]
    rfl
  | @decrease _ tx minerId _ db' hq =>
    have hhas : s.db.rewards.Has minerId := hs.has (k := tx.minerPubkey) (by rw [hpc]; rfl)
    refine ⟨bookings, ?_⟩
    rw [watchSeen_quiet (by simp)]
    exact h.debit hhas hq
  | @poolClaimed _ tx _ _ p p' hp _ hclaimed =>
    refine ⟨bookings, ?_⟩
    rw [watchSeen_quiet (by simp)]
    refine ⟨h.seen, h.debits, ?_, h.txns, h.claims,
      fun b hb => (h.links b hb).mono (.of_eq rfl rfl) (List.prefix_refl _), by rintro _ _ ⟨⟩, by rintro _ ⟨⟩⟩
    have hpool := h.pool
    rw [poolClaimed_of_some hp] at hpool
    rw [poolClaimed_of_some (p := p') rfl, hclaimed, hpool]
    rfl
  | @addTxn _ tx _ _ _ _ hdb' =>
    subst hdb'
    refine ⟨bookings, ?_⟩
    rw [watchSeen_quiet (by simp)]
    refine ⟨h.seen, h.debits, h.pool, ?_, h.claims,
      fun b hb => (h.links b hb).mono (.of_eq rfl rfl) (List.prefix_append _ _), by rintro _ _ ⟨⟩, by rintro _ ⟨⟩⟩
    have htxns := h.txns
    simp only [ClaimPc.txns, List.append_nil] at htxns
    rw [htxns]
    rfl
  | @gotTxn _ tx minerId poolId txnId hget =>
    refine ⟨bookings, ?_⟩
    rw [watchSeen_quiet (by simp)]
    refine ⟨h.seen, h.debits, h.pool, h.txns, h.claims, h.links, ?_, by rintro _ ⟨⟩⟩
    rintro _ _ ⟨⟩
    refine ⟨hs.miner (k := tx.minerPubkey) (by rw [hpc]; rfl), rfl, ?_⟩
    obtain ⟨i, hi, rfl⟩ := Option.map_eq_some_iff.1 (query_ok hget)
    obtain ⟨hlt, hsig, -⟩ := List.findIdx?_eq_some_iff_getElem.1 hi
    exact ⟨_, List.getElem?_eq_getElem hlt, by simpa using hsig⟩
  | @addClaim _ tx claim =>
    refine ⟨bookings ++ [⟨tx, { claim with createdAt := s.now }⟩], ?_⟩
    rw [watchSeen_quiet (by simp)]
    exact h.book
  | _ =>
    refine ⟨bookings, ?_⟩
    rw [watchSeen_quiet (by simp)]
    exact h.move rfl rfl rfl rfl (by rintro _ _ ⟨⟩) (by rintro _ ⟨⟩)

variable {su : Setup} {s s' : Treasury} {a : Action}

theorem Books.step (hs : s.Known) (h : Books db₀ s.db s.claim seen bookings) (hstep : Step su s a s') :
    ∃ bookings', Books db₀ s'.db s'.claim (s.watchSeen a seen) bookings' := by
  cases hstep with
  | claim hstep => exact h.claimStep hs hstep
  | payout _ hstep =>
    refine ⟨bookings, ?_⟩
    simpa [watchSeen, sees] using h.same (sameBooks_of_payoutStep hstep)
  | mineCall hstep =>
    refine ⟨bookings, ?_⟩
    simpa [watchSeen, sees] using h.same (sameBooks_of_mineStep hstep)
  | @signup o id pubkey =>
    refine ⟨bookings, ?_⟩
    simpa [watchSeen, sees] using h.same (sameBooks_of_signup o id pubkey s.db)
  | _ => exact ⟨bookings, by simpa [watchSeen, sees] using h⟩

/-- The numbers of the transactions seen finalised increase, and all of them are on the chain. -/
structure Numbered (chain : Chain) (pc : ClaimPc) (seen : List ClaimTx) : Prop where
  sorted : seen.Pairwise fun tx tx' => tx.id < tx'.id
  landed : ∀ tx ∈ seen, ⟨tx, true⟩ ∈ chain.landed
  old : ∀ tx ∈ seen, tx.id < chain.nextTx
  current : ∀ {tx}, pc.tx? = some tx → tx.id < chain.nextTx ∧ (pc.seen? = none → ∀ tx' ∈ seen, tx'.id < tx.id)

theorem Numbered.start (chain : Chain) : Numbered chain .idle [] where
  sorted := .nil
  landed tx htx := by cases htx
  old tx htx := by cases htx
  current h := by cases h

private theorem Numbered.move {chain chain' : Chain} (h : Numbered chain pc seen) (hnext : chain'.nextTx = chain.nextTx)
    (hlanded : ∀ {l}, l ∈ chain.landed → l ∈ chain'.landed)
    (htx : ∀ {tx}, pc'.tx? = some tx → pc.tx? = some tx ∧ (pc'.seen? = none → pc.seen? = none)) :
    Numbered chain' pc' seen where
  sorted := h.sorted
  landed tx hmem := hlanded (h.landed tx hmem)
  old tx hmem := hnext ▸ h.old tx hmem
  current hpc := ⟨hnext ▸ (h.current (htx hpc).1).1, fun hnone => (h.current (htx hpc).1).2 ((htx hpc).2 hnone)⟩

theorem Numbered.step (h : Numbered s.chain s.claim seen) (hstep : Step su s a s') :
    Numbered s'.chain s'.claim (s.watchSeen a seen) := by
  cases hstep with
  | @claim input m pc hstep =>
    generalize hpc : s.claim = pc₀ at h hstep
    cases hstep with
    | @stay _ _ _ hretry =>
      rw [watchSeen_quiet (by rintro rfl; simp at hretry)]
      exact h
    | @finalized tx hlanded =>
      rw [watchSeen_finalized hpc]
      have htx : (ClaimPc.poll tx).tx? = some tx := rfl
      obtain ⟨hlt, hfresh⟩ := h.current htx
      refine ⟨List.pairwise_append.2 ⟨h.sorted, List.pairwise_singleton _ _, fun tx' htx' tx'' htx'' => ?_⟩,
        fun tx' htx' => ?_, fun tx' htx' => ?_, fun hpc' => ?_⟩
      · rw [List.mem_singleton.1 htx'']
        exact hfresh rfl tx' htx'
      · rcases List.mem_append.1 htx' with htx' | htx'
        · exact h.landed tx' htx'
        · rw [List.mem_singleton.1 htx']
          exact hlanded
      · rcases List.mem_append.1 htx' with htx' | htx'
        · exact h.old tx' htx'
        · rw [List.mem_singleton.1 htx']
          exact hlt
      · cases hpc'
        exact ⟨hlt, by rintro ⟨⟩⟩
    | build =>
      rw [watchSeen_quiet (by simp)]
      refine ⟨h.sorted, h.landed, fun tx htx => Nat.lt_succ_of_lt (h.old tx htx), fun hpc' => ?_⟩
      cases hpc'
      exact ⟨Nat.lt_succ_self _, fun _ => h.old⟩
    | _ =>
      rw [watchSeen_quiet (by simp)]
      exact h.move rfl id fun hpc' => by cases hpc' <;> exact ⟨rfl, id⟩
  | @land tx ok c hland =>
    obtain ⟨-, -, hnext, -, hlanded⟩ := Broadcast.Chain.land?_eq_some hland
    have hmove := h.move hnext (fun hl => hlanded ▸ List.mem_cons_of_mem _ hl) fun hpc' => ⟨hpc', id⟩
    simpa [watchSeen, sees] using hmove
  | _ => simpa [watchSeen, sees] using h

theorem accounted_of_step (hs : s.Known) (hacc : s.db.Accounted) (hstep : Step su s a s') : s'.db.Accounted := by
  cases hstep with
  | claim hstep =>
    generalize hpc : s.claim = pc₀ at hstep
    cases hstep with
    | @decrease _ tx minerId _ _ hq =>
      exact accounted_of_decrease (hs.has (k := tx.minerPubkey) (by rw [hpc]; rfl)) hq hacc
    | poolClaimed | addClaim => exact hacc
    | addTxn hl => exact hl.grows.accounted hacc
    | _ => exact hacc
  | payout _ hstep => exact (grows_of_payoutStep hstep).accounted hacc
  | mineCall hstep => exact (grows_of_mineStep hstep).accounted hacc
  | signup => exact (grows_of_signup ..).accounted hacc
  | _ => exact hacc

/-! ### The two lookups -/

end Treasury

/-- A lookup that is unwrapped succeeds. -/
def ClaimPc.LookupOk (o : CallOutcome) (db : Database) : ClaimPc → Prop
  | .getMiner tx => (getMinerByPubkeyStr o tx.minerPubkey db).isOk = true
  | .getPool _ _ => (getPoolByAuthorityPubkey o db).isOk = true
  | _ => True

instance (o : CallOutcome) (db : Database) (pc : ClaimPc) : Decidable (pc.LookupOk o db) := by
  cases pc <;> unfold ClaimPc.LookupOk <;> infer_instance

/-- The call that `claim_system` makes next in a booking returns `Ok`. -/
def ClaimPc.CallOk (o : CallOutcome) (now : ℕ) (db : Database) : ClaimPc → Prop
  | .getMiner tx => (getMinerByPubkeyStr o tx.minerPubkey db).isOk = true
  | .getPool _ _ => (getPoolByAuthorityPubkey o db).isOk = true
  | .decrease tx minerId _ => (decreaseMinerReward o ⟨minerId, tx.item.amount⟩ db).1.isOk = true
  | .poolClaimed tx _ _ => (updatePoolClaimed o tx.item.amount db).1.isOk = true
  | .addTxn tx _ _ => (addNewTxn o tx.txn db).1.isOk = true
  | .getTxn tx _ _ => (getTxnBySig o tx.id db).isOk = true
  | .addClaim _ claim => (addNewClaim o now claim db).1.isOk = true
  | _ => True

instance (o : CallOutcome) (now : ℕ) (db : Database) (pc : ClaimPc) : Decidable (pc.CallOk o now db) := by
  cases pc <;> unfold ClaimPc.CallOk <;> infer_instance

/-- A call that returns `Ok` brings a booking nearer to its end. -/
theorem ClaimPc.callsLeft_lt {o : CallOutcome} {now : ℕ} {m m' : ClaimMemory} {pc pc' : ClaimPc} {tx : ClaimTx}
    (hok : pc.CallOk o now m.db) (htx : pc.unbooked? = some tx) (h : pc.step now m (.call o) = some (m', pc')) :
    pc'.callsLeft < pc.callsLeft := by
  cases pc with
  | idle | tokenAccount | blockhash | send | poll | drop | remove => cases htx
  | dead => cases h
  | getMiner tx =>
    obtain ⟨miner, hcall⟩ := isOk_iff.1 hok
    simp only [ClaimPc.step, hcall] at h
    cases h
    exact Nat.lt_succ_self _
  | getPool tx minerId =>
    obtain ⟨pool, hcall⟩ := isOk_iff.1 hok
    simp only [ClaimPc.step, hcall] at h
    cases h
    exact Nat.lt_succ_self _
  | getTxn tx minerId poolId =>
    obtain ⟨txnId, hcall⟩ := isOk_iff.1 hok
    simp only [ClaimPc.step, hcall] at h
    cases h
    exact Nat.lt_succ_self _
  | decrease tx minerId poolId =>
    obtain ⟨n, db, hcall⟩ := isOk_fst hok
    simp only [ClaimPc.step, hcall] at h
    cases h
    exact Nat.lt_succ_self _
  | poolClaimed tx minerId poolId =>
    obtain ⟨n, db, hcall⟩ := isOk_fst hok
    simp only [ClaimPc.step, hcall] at h
    cases h
    exact Nat.lt_succ_self _
  | addTxn tx minerId poolId =>
    obtain ⟨n, db, hcall⟩ := isOk_fst hok
    simp only [ClaimTx.txn] at hcall
    simp only [ClaimPc.step, hcall] at h
    cases h
    exact Nat.lt_succ_self _
  | addClaim tx claim =>
    obtain ⟨n, db, hcall⟩ := isOk_fst hok
    simp only [ClaimPc.step, hcall] at h
    cases h
    exact Nat.lt_succ_self _

namespace Treasury

def Action.claimCall? : Action → Option CallOutcome
  | .claimStep (.call o) => some o
  | _ => none

/-- The step is not a failed lookup of `claim_system`. -/
def LookupsSucceed (s : Treasury) (a : Action) : Prop := ∀ o ∈ a.claimCall?, s.claim.LookupOk o s.db

instance (s : Treasury) (a : Action) : Decidable (s.LookupsSucceed a) :=
  inferInstanceAs (Decidable (∀ o ∈ a.claimCall?, s.claim.LookupOk o s.db))

/-- `claim_system` is alive. -/
def Alive (s : Treasury) : Prop := ∀ tx, s.claim ≠ .dead tx

theorem Alive.step (hs : s.Alive) (hC : s.LookupsSucceed a) (hstep : Step su s a s') : s'.Alive := by
  cases hstep with
  | claim hstep =>
    generalize hpc : s.claim = pc₀ at hstep
    cases hstep with
    | stay => exact fun tx => hpc ▸ hs tx
    | @noMiner o tx e he =>
      have hok := hC o rfl
      rw [hpc] at hok
      simp only [ClaimPc.LookupOk, he] at hok
      cases hok
    | @noPool o tx minerId e he =>
      have hok := hC o rfl
      rw [hpc] at hok
      simp only [ClaimPc.LookupOk, he] at hok
      cases hok
    | _ => rintro _ ⟨⟩
  | _ => exact hs

/-! ### Progress -/

/-- The transaction is being booked, or booked and still to be removed. -/
def InHand (tx : ClaimTx) (pc : ClaimPc) : Prop := pc.unbooked? = some tx ∨ pc = .remove tx

/-- A step of any task but the removal leaves a live booking where it is or brings it nearer to its end. -/
theorem InHand.step {tx : ClaimTx} (htx : InHand tx s.claim) (halive : s'.Alive) (hstep : Step su s a s')
    (hremove : s.claim = .remove tx → a ≠ .claimStep .remove) :
    InHand tx s'.claim ∧ (s'.claim = s.claim ∨ s'.claim.callsLeft < s.claim.callsLeft) := by
  cases hstep with
  | @claim input m pc hstep =>
    have halive' : ∀ tx, pc ≠ .dead tx := halive
    clear halive
    simp only at hremove ⊢
    generalize s.claim = pc₀ at htx hstep hremove ⊢
    cases hstep with
    | stay => exact ⟨htx, Or.inl rfl⟩
    | gotMiner | gotPool | decrease | poolClaimed | addTxn | gotTxn =>
      rcases htx with htx | htx <;> cases htx
      exact ⟨Or.inl rfl, Or.inr (by simp [ClaimPc.callsLeft])⟩
    | addClaim =>
      rcases htx with htx | htx <;> cases htx
      exact ⟨Or.inr rfl, Or.inr Nat.zero_lt_one⟩
    | noMiner | noPool => exact absurd rfl (halive' _)
    | remove =>
      rcases htx with htx | htx <;> cases htx
      exact absurd rfl (hremove rfl)
    | _ => rcases htx with htx | htx <;> cases htx
  | _ => exact ⟨htx, Or.inl rfl⟩

/-- The server running on and on, in which the two lookups succeed. -/
structure Endless (su : Setup) (t : ℕ → Treasury) (a : ℕ → Action) : Prop where
  moves : ∀ n, Treasury.step su (t n) (a n) = some (t (n + 1))
  lookups : ∀ n, (t n).LookupsSucceed (a n)

/-- While the transaction is in hand, from the `n`-th step on, `claim_system` gets its turns, and finitely many of its
calls fail. -/
structure BookingServed (t : ℕ → Treasury) (a : ℕ → Action) (n : ℕ) (tx : ClaimTx) : Prop where
  turns : (∀ k ≥ n, InHand tx (t k).claim) → ∀ m ≥ n, ∃ k ≥ m, ∃ input, a k = .claimStep input
  succeed : (∀ k ≥ n, InHand tx (t k).claim) →
    ∃ N, ∀ k ≥ N, ∀ o ∈ (a k).claimCall?, (t k).claim.CallOk o (t k).now (t k).db

theorem Endless.alive {t : ℕ → Treasury} {a : ℕ → Action} (ht : Endless su t a) (h0 : (t 0).Alive) (n : ℕ) :
    (t n).Alive := by
  induction n with
  | zero => exact h0
  | succ n ih => exact ih.step (ht.lookups n) (step_sound (ht.moves n))

/-- With a booking in hand, `claim_system` makes a call, or removes the item at the end. -/
private theorem InHand.input {tx : ClaimTx} {pc : ClaimPc} (htx : InHand tx pc) {now : ℕ} {m : ClaimMemory}
    {input : ClaimInput} {x : ClaimMemory × ClaimPc} (h : pc.step now m input = some x) :
    (∃ o, input = .call o ∧ pc.unbooked? = some tx) ∨ input = .remove ∧ pc = .remove tx := by
  have hcases : (∃ o, input = .call o) ∨ input = .remove ∧ pc = .remove tx := by
    rcases htx with htx | rfl
    · cases pc with
      | idle | tokenAccount | blockhash | send | poll | drop | remove => cases htx
      | _ =>
        cases input with
        | call o => exact Or.inl ⟨o, rfl⟩
        | status a => cases a <;> cases h
        | _ => cases h
    · cases input with
      | call o => exact Or.inl ⟨o, rfl⟩
      | remove => exact Or.inr ⟨rfl, rfl⟩
      | status a => cases a <;> cases h
      | _ => cases h
  rcases hcases with ⟨o, rfl⟩ | hremove
  · rcases htx with htx | rfl
    · exact Or.inl ⟨o, rfl, htx⟩
    · cases h
  · exact Or.inr hremove

/-- A turn of `claim_system` with a booking in hand whose call succeeds, and which is not the removal. -/
private theorem InHand.turn {tx : ClaimTx} {input : ClaimInput} (htx : InHand tx s.claim)
    (hok : ∀ o ∈ (Action.claimStep input).claimCall?, s.claim.CallOk o s.now s.db)
    (hstep : Treasury.step su s (.claimStep input) = some s') (hremove : s.claim = .remove tx → input ≠ .remove) :
    s'.claim.callsLeft < s.claim.callsLeft := by
  simp only [Treasury.step, stepClaim, Option.bind_eq_bind, Option.bind_eq_some_iff, Option.pure_def,
    Option.some.injEq] at hstep
  obtain ⟨⟨m, pc⟩, hpc, rfl⟩ := hstep
  rcases htx.input hpc with ⟨o, rfl, hunbooked⟩ | ⟨hinput, hclaim⟩
  · exact ClaimPc.callsLeft_lt (hok o rfl) hunbooked hpc
  · exact absurd hinput (hremove hclaim)

/-- It books every transaction it has seen finalised, and removes its item. -/
theorem Endless.removes {t : ℕ → Treasury} {a : ℕ → Action} (ht : Endless su t a) (h0 : (t 0).Alive) {n : ℕ}
    {tx : ClaimTx} (htx : (t n).claim.unbooked? = some tx) (hserved : BookingServed t a n tx) :
    ∃ k ≥ n, (t k).claim = .remove tx ∧ a k = .claimStep .remove := by
  by_contra! hnever
  have hstep : ∀ k ≥ n, InHand tx (t k).claim → InHand tx (t (k + 1)).claim ∧
      ((t (k + 1)).claim = (t k).claim ∨ (t (k + 1)).claim.callsLeft < (t k).claim.callsLeft) :=
    fun k hk hhand => hhand.step (ht.alive h0 _) (step_sound (ht.moves k)) (hnever k hk)
  have hhand : ∀ k ≥ n, InHand tx (t k).claim := by
    intro k hk
    induction k, hk using Nat.le_induction with
    | base => exact Or.inl htx
    | succ k hk ih => exact (hstep k hk ih).1
  obtain ⟨k, hk, hnot⟩ := ends_of_turns (fun k => (t k).claim.callsLeft) hserved.turns fun hlasts => by
    obtain ⟨N, hok⟩ := hserved.succeed hlasts
    refine ⟨N, fun k hk hN => ⟨?_, ?_⟩⟩
    · rcases (hstep k hk (hhand k hk)).2 with hsame | hlt
      · rw [hsame]
      · exact Nat.le_of_lt hlt
    · rintro ⟨input, hinput⟩
      have hmove := ht.moves k
      rw [hinput] at hmove
      refine (hhand k hk).turn (hinput ▸ hok k hN) hmove fun hpc hremove => ?_
      exact hnever k hk hpc (hremove ▸ hinput)
  exact hnot (hhand k hk)

/-! ### Runs -/

/-- What holds in a state in which the transactions `seen` were seen finalised.  They are booked, but for the one in
process; none was seen twice; while one is in process `claim_system` can go on, and does not touch the queue. -/
structure ClaimsKept (su : Setup) (db₀ : Database) (s : Treasury) (seen : List ClaimTx) : Prop where
  alive : s.Alive
  books : ∃ bookings, Books db₀ s.db s.claim seen bookings ∧
    (s.claim.unbooked? = none → seen = bookings.map Booking.tx ∧ Booked db₀ s.db bookings)
  once : seen.Pairwise fun tx tx' => tx.id < tx'.id
  landed : ∀ tx ∈ seen, ⟨tx, true⟩ ∈ s.chain.landed
  accounted : s.db.Accounted
  goesOn : s.claim.unbooked? ≠ none → ∀ o, (Treasury.step su s (.claimStep (.call o))).isSome
  queue : s.claim.unbooked? ≠ none → ∀ input s', Treasury.step su s (.claimStep input) = some s' → s'.queue = s.queue

private theorem goesOn_of_alive (hs : s.Alive) (hpc : s.claim.unbooked? ≠ none) (o : CallOutcome) :
    (Treasury.step su s (.claimStep (.call o))).isSome := by
  have hsome : (s.claim.step s.now ⟨s.db, s.queue, s.chain⟩ (.call o)).isSome := by
    rcases h : s.claim with _ | _ | _ | _ | _ | _ | _ | _ | _ | _ | _ | _ | _ | _ | tx
    all_goals first
      | exact absurd (congrArg ClaimPc.unbooked? h) hpc
      | exact absurd h (hs tx)
      | simp only [ClaimPc.step]; split <;> rfl
  obtain ⟨x, hx⟩ := Option.isSome_iff_exists.1 hsome
  simp [Treasury.step, stepClaim, hx]

private theorem queue_of_unbooked (hpc : s.claim.unbooked? ≠ none) {input : ClaimInput}
    (h : Treasury.step su s (.claimStep input) = some s') : s'.queue = s.queue := by
  cases step_sound h with
  | claim hstep =>
    generalize s.claim = pc₀ at hpc hstep
    cases hstep with
    | remove | drop => exact absurd rfl hpc
    | _ => rfl

/-- From a fresh server, whatever is requested, mined and signed up and however the tasks are interleaved: when no
lookup of the miner or the pool fails, every transaction that is seen finalised is booked once, before its item is
removed and the next is picked; and when, while it is being booked, `claim_system` gets its turns and finitely many of
its calls fail, it is booked and its item removed. -/
theorem claims_booked (su : Setup) {s : Treasury} (h0 : s.Fresh) (hacc : s.db.Accounted) :
    (∀ as s' seen, Along (Treasury.step su) LookupsSucceed s as →
      run (watched (Treasury.step su) watchSeen) (s, []) as = some (s', seen) → ClaimsKept su s.db s' seen) ∧
    ∀ t a, Endless su t a → t 0 = s → ∀ n tx, (t n).claim.unbooked? = some tx → BookingServed t a n tx →
      ∃ k ≥ n, (t k).claim = .remove tx ∧ a k = .claimStep .remove := by
  have halive : s.Alive := by
    intro tx
    rw [h0.claim]
    simp
  refine ⟨fun as s' seen hC h => ?_, fun t a ht hstart n tx htx hserved => ht.removes (hstart ▸ halive) htx hserved⟩
  have hstart : s.Alive ∧ s.Known ∧ (∃ bookings, Books s.db s.db s.claim [] bookings) ∧
      Numbered s.chain s.claim [] ∧ s.db.Accounted := by
    rw [h0.claim]
    exact ⟨halive, h0.known, ⟨[], Books.start s.db⟩, Numbered.start s.chain, hacc⟩
  obtain ⟨halive', -, ⟨bookings, hbooks⟩, hnumbered, hacc'⟩ :=
    run_invariant (I := fun x : Treasury × List ClaimTx => x.1.Alive ∧ x.1.Known ∧
        (∃ bookings, Books s.db x.1.db x.1.claim x.2 bookings) ∧ Numbered x.1.chain x.1.claim x.2 ∧ x.1.db.Accounted)
      (fun {x a y} hx hC hxy => by
        obtain ⟨hlive, hknown, ⟨bookings, hbooks⟩, hnumbered, hacc⟩ := hx
        obtain ⟨hstep, hseen⟩ := watched_eq_some.1 hxy
        have hstep := step_sound hstep
        rw [hseen]
        exact ⟨hlive.step hC hstep, hknown.step hstep, hbooks.step hknown hstep, hnumbered.step hstep,
          accounted_of_step hknown hacc hstep⟩)
      hstart (Along.watched (x := (s, [])) hC) h
  exact ⟨halive', ⟨bookings, hbooks, hbooks.booked⟩, hnumbered.sorted, hnumbered.landed, hacc', goesOn_of_alive halive',
    fun hpc _ _ hstep => queue_of_unbooked hpc hstep⟩

/-- One claim, in which every write is tried twice. -/
def stubbornClaim : List Action :=
  let twice := [.claimStep (.call .noConnection), .claimStep (.call .executed)]
  [.request (.direct (filled 7))] ++ directChecks 0 ++ [.requestStep 0 .insert] ++ claimSend (exampleTx 0 0) ++
    [.land (exampleTx 0 0) true, .claimStep (.status (.finalized true))] ++
    List.replicate 2 (.claimStep (.call .executed)) ++ twice ++ twice ++ twice ++ twice ++ twice ++ [.claimStep .remove]

/-- The same claim in a server that runs on after it. -/
def stubbornServer : ℕ → Treasury := forever (Treasury.step exampleSetup) .tick stubbornClaim exampleStart

private theorem stubbornServer_endless : Endless exampleSetup stubbornServer fun n => stubbornClaim.getD n .tick := by
  have hrun : (run (Treasury.step exampleSetup) exampleStart stubbornClaim).isSome := by decide +kernel
  have hidle : ∀ s : Treasury, (Treasury.step exampleSetup s .tick).isSome ∧ s.LookupsSucceed .tick :=
    fun s => ⟨rfl, fun o ho => by cases ho⟩
  exact ⟨forever_moves (fun s => (hidle s).1) hrun, forever_along hidle hrun (by decide +kernel)⟩

theorem claims_booked_example :
    (∃ s' bookings, run (watched (Treasury.step exampleSetup) watchSeen) (exampleStart, []) stubbornClaim =
      some (s', [exampleTx 0 0]) ∧ Booked exampleStart.db s'.db bookings ∧
        bookings.map Booking.tx = [exampleTx 0 0]) ∧
    ∃ k ≥ 11, (stubbornServer k).claim = .remove (exampleTx 0 0) ∧
      stubbornClaim.getD k .tick = .claimStep .remove := by
  constructor
  · obtain ⟨⟨s', seen⟩, h, hclaim, rfl⟩ : ∃ x,
        run (watched (Treasury.step exampleSetup) watchSeen) (exampleStart, []) stubbornClaim = some x ∧
          x.1.claim = .idle ∧ x.2 = [exampleTx 0 0] := exists_of_run (by decide +kernel)
    obtain ⟨bookings, -, hbooked⟩ :=
      ((claims_booked exampleSetup (start_fresh _) (single_accounted _ _)).1 _ _ _ (by decide +kernel) h).books
    obtain ⟨hseen, hbooked⟩ := hbooked (by rw [hclaim]; rfl)
    exact ⟨s', bookings, h, hbooked, hseen.symm⟩
  · have hseen : (stubbornServer 11).claim.unbooked? = some (exampleTx 0 0) := by decide +kernel
    have hserved : BookingServed stubbornServer (fun n => stubbornClaim.getD n .tick) 11 (exampleTx 0 0) := by
      refine ⟨fun hhand => ?_, fun _ => ⟨stubbornClaim.length, fun k hk o ho => ?_⟩⟩
      · -- it is not in hand for ever: the item is removed
        have hidle : (stubbornServer stubbornClaim.length).claim = .idle := by decide +kernel
        rcases hhand stubbornClaim.length (by decide) with h | h <;> rw [hidle] at h <;> cases h
      · rw [List.getD_eq_getElem?_getD, List.getElem?_eq_none hk] at ho
        cases ho
    exact (claims_booked exampleSetup (start_fresh _) (single_accounted _ _)).2 _ _ stubbornServer_endless rfl 11 _
      hseen hserved

/-- One claim, whose miner is looked up without a connection to the database. -/
def unluckyClaim : List Action :=
  [.request (.direct (filled 7))] ++ directChecks 0 ++ [.requestStep 0 .insert] ++ claimSend (exampleTx 0 0) ++
    [.land (exampleTx 0 0) true, .claimStep (.status (.finalized true)), .claimStep (.call .noConnection)]

/-- The failed lookup comes after the payment: `claim_system` is dead, and nothing is booked. -/
theorem finalised_not_booked :
    ∃ s', run (watched (Treasury.step exampleSetup) watchSeen) (exampleStart, []) unluckyClaim =
        some (s', [exampleTx 0 0]) ∧
      s'.db.debits = [] ∧ s'.db.poolClaimed = 0 ∧ s'.db.txns = [] ∧ s'.db.claims = [] ∧
      ∀ input, Treasury.step exampleSetup s' (.claimStep input) = none := by
  obtain ⟨⟨s', seen⟩, h, hclaim, rfl, h1, h2, h3, h4⟩ : ∃ x,
      run (watched (Treasury.step exampleSetup) watchSeen) (exampleStart, []) unluckyClaim = some x ∧
        x.1.claim = .dead (exampleTx 0 0) ∧ x.2 = [exampleTx 0 0] ∧ x.1.db.debits = [] ∧
          x.1.db.poolClaimed = 0 ∧ x.1.db.txns = [] ∧ x.1.db.claims = [] := exists_of_run (by decide +kernel)
  refine ⟨s', h, h1, h2, h3, h4, fun input => ?_⟩
  have hnone : s'.claim.step s'.now ⟨s'.db, s'.queue, s'.chain⟩ input = none := by
    rw [hclaim]
    cases input with
    | status a => cases a <;> rfl
    | _ => rfl
  simp [Treasury.step, stepClaim, hnone]

end Treasury

end BitzPool
