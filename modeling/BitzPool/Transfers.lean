import BitzPool.ClaimBooked
import BitzPool.Crashes

/-!
# Where the transfers go

A claim is first paid on the chain and then debited, by a process that can end between the two, and that gives a
transaction up after five failed sends or 120 seconds.  What is left behind in one of these ways may be finalised at any
time after, and nothing debits it any more; the miner can claim the same balance again.

These are the only ways to lose track of a transfer.  Over the whole life of a deployment every finalised transfer was
debited, is the one in process, or was left behind, each exactly once, and nothing is debited without a transfer
(`transfers_settled`).
-/

namespace BitzPool

open Keyed Database Transition

/-! ### Transactions without a debit -/

/-- The transaction in process, until it is debited. -/
def ClaimPc.open? : ClaimPc → Option ClaimTx
  | .send tx _ | .poll tx | .getMiner tx | .getPool tx _ | .decrease tx _ _ | .dead tx => some tx
  | _ => none

/-- The miner that a transaction is for. -/
def Database.payee (db : Database) (tx : ClaimTx) : Option MinerId := (db.miners.find? tx.minerPubkey).map Miner.id

/-- Its miner has a row. -/
def Database.Knows (db : Database) (tx : ClaimTx) : Prop := ∃ m, db.miners.find? tx.minerPubkey = some m

namespace Chain

/-- The items of all finalised transfers to a miner. -/
def drawn (c : Chain) (db : Database) (id : MinerId) : ℕ :=
  sumAt (fun l : Landed => db.payee l.tx) (fun l => if l.ok then l.tx.item.amount.toNat else 0) c.landed (some id)

/-- What these transfers pay: the fee for a token account is kept back. -/
def received (c : Chain) (db : Database) (id : MinerId) : ℕ :=
  sumAt (fun l : Landed => db.payee l.tx) (fun l => if l.ok then l.tx.claimAmount.toNat else 0) c.landed (some id)

/-- The amount of its item, when the transaction is finalised. -/
def amountOf (c : Chain) (tx : ClaimTx) : ℕ := if ⟨tx, true⟩ ∈ c.landed then tx.item.amount.toNat else 0

/-- The items of those of the transactions that are finalised. -/
def drawnBy (c : Chain) (db : Database) (txs : List ClaimTx) (id : MinerId) : ℕ :=
  sumAt db.payee c.amountOf txs (some id)

theorem drawnBy_cons (c : Chain) (db : Database) (tx : ClaimTx) (txs : List ClaimTx) (id : MinerId) :
    c.drawnBy db (tx :: txs) id = (if db.payee tx = some id then c.amountOf tx else 0) + c.drawnBy db txs id :=
  sumAt_cons _ _ _

theorem amountOf_of_not_landed {c : Chain} {tx : ClaimTx} (h : ⟨tx, true⟩ ∉ c.landed) : c.amountOf tx = 0 :=
  if_neg h

/-- What is received is drawn, less fees. -/
theorem received_le_drawn {c : Chain} (h : ∀ l ∈ c.landed, l.tx.claimAmount ≤ l.tx.item.amount) (db : Database)
    (id : MinerId) : c.received db id ≤ c.drawn db id := by
  refine sumAt_le_sumAt (fun l hl => ?_) _
  have hle : l.tx.claimAmount.toNat ≤ l.tx.item.amount.toNat := UInt64.le_iff_toNat_le.1 (h l hl)
  cases l.ok
  · exact Nat.le_refl 0
  · exact hle

end Chain

theorem Database.Knows.payee {db db' : Database} {tx : ClaimTx} (h : db.Knows tx)
    (hext : ∀ {p m}, db.miners.find? p = some m → db'.miners.find? p = some m) :
    db'.Knows tx ∧ db'.payee tx = db.payee tx := by
  obtain ⟨m, hm⟩ := h
  refine ⟨⟨m, hext hm⟩, ?_⟩
  rw [Database.payee, Database.payee, hm, hext hm]

/-! ### The account of the transfers -/

/-- `txs` are the transactions without a debit, in process or left behind.  All that is sent and not yet finalised is among
them, and the transfers are accounted for: `base` was debited when the chain was empty. -/
structure Settled (base : MinerId → ℕ) (db : Database) (chain : Chain) (txs : List ClaimTx) : Prop where
  nodup : txs.Nodup
  old : ∀ tx ∈ txs, tx.id < chain.nextTx
  sentOld : ∀ tx ∈ chain.sent, tx.id < chain.nextTx
  sent : ∀ tx ∈ chain.sent, tx ∈ txs ∨ ∃ ok, ⟨tx, ok⟩ ∈ chain.landed
  known : ∀ tx, tx ∈ txs ∨ tx ∈ chain.sent → db.Knows tx
  price : ∀ tx, tx ∈ txs ∨ tx ∈ chain.sent → tx.claimAmount ≤ tx.item.amount
  settled : ∀ id, db.debited id + chain.drawnBy db txs id = base id + chain.drawn db id

namespace Settled

variable {base : MinerId → ℕ} {db db' : Database} {chain chain' : Chain} {tx : ClaimTx} {txs : List ClaimTx}

theorem empty (db : Database) : Settled db.debited db ∅ [] where
  nodup := List.nodup_nil
  old _ h := by cases h
  sentOld _ h := by cases h
  sent _ h := by cases h
  known _ h := by rcases h with h | h <;> cases h
  price _ h := by rcases h with h | h <;> cases h
  settled _ := rfl

/-- No one is debited, and miners stay known. -/
theorem extend (h : Settled base db chain txs)
    (hext : ∀ {p m}, db.miners.find? p = some m → db'.miners.find? p = some m) (hdebits : db'.debits = db.debits) :
    Settled base db' chain txs := by
  refine ⟨h.nodup, h.old, h.sentOld, h.sent, fun tx htx => ((h.known tx htx).payee hext).1, h.price, fun id => ?_⟩
  have hdebited : db'.debited id = db.debited id := by rw [Database.debited, Database.debited, hdebits]
  have hby : chain.drawnBy db' txs id = chain.drawnBy db txs id :=
    sumAt_congr (fun tx htx => ((h.known tx (Or.inl htx)).payee hext).2) (fun _ _ => rfl) _
  have hall : chain.drawn db' id = chain.drawn db id :=
    sumAt_congr (fun l hl => ((h.known l.tx (Or.inr (chain.landedSent l hl))).payee hext).2) (fun _ _ => rfl) _
  rw [hdebited, hby, hall]
  exact h.settled id

theorem build (h : Settled base db chain txs) (hid : tx.id = chain.nextTx) (hknown : db.Knows tx)
    (hprice : tx.claimAmount ≤ tx.item.amount) : Settled base db chain.build (tx :: txs) := by
  have hnew : tx ∉ chain.sent := fun hsent => by
    have := h.sentOld tx hsent
    omega
  refine ⟨List.nodup_cons.2 ⟨fun htx => ?_, h.nodup⟩, fun tx' htx' => ?_,
    fun tx' htx' => Nat.lt_succ_of_lt (h.sentOld tx' htx'), fun tx' htx' => ?_, fun tx' htx' => ?_, fun tx' htx' => ?_,
    fun id => ?_⟩
  · have := h.old tx htx
    omega
  · rcases List.mem_cons.1 htx' with rfl | htx'
    · show tx'.id < chain.nextTx + 1
      omega
    · exact Nat.lt_succ_of_lt (h.old tx' htx')
  · exact (h.sent tx' htx').imp_left (List.mem_cons_of_mem _)
  · rcases htx' with htx' | htx'
    · rcases List.mem_cons.1 htx' with rfl | htx'
      · exact hknown
      · exact h.known tx' (Or.inl htx')
    · exact h.known tx' (Or.inr htx')
  · rcases htx' with htx' | htx'
    · rcases List.mem_cons.1 htx' with rfl | htx'
      · exact hprice
      · exact h.price tx' (Or.inl htx')
    · exact h.price tx' (Or.inr htx')
  · have hzero : Chain.amountOf chain.build tx = 0 := Chain.amountOf_of_not_landed fun hl => hnew (chain.landedSent _ hl)
    have hold := h.settled id
    rw [Chain.drawnBy_cons, hzero, ite_self, Nat.zero_add]
    exact hold

theorem send (h : Settled base db chain txs) (htx : tx ∈ txs) : Settled base db (chain.send tx) txs where
  nodup := h.nodup
  old := h.old
  sentOld := List.forall_mem_cons.2 ⟨h.old tx htx, h.sentOld⟩
  sent := List.forall_mem_cons.2 ⟨Or.inl htx, h.sent⟩
  known tx' htx' := by
    rcases htx' with htx' | htx'
    · exact h.known tx' (Or.inl htx')
    · rcases List.mem_cons.1 htx' with rfl | htx'
      · exact h.known tx' (Or.inl htx)
      · exact h.known tx' (Or.inr htx')
  price tx' htx' := by
    rcases htx' with htx' | htx'
    · exact h.price tx' (Or.inl htx')
    · rcases List.mem_cons.1 htx' with rfl | htx'
      · exact h.price tx' (Or.inl htx)
      · exact h.price tx' (Or.inr htx')
  settled := h.settled

/-- A transaction whose fate is known needs no account of its own. -/
private theorem forget (h : Settled base db chain (tx :: txs)) {ok : Bool} (hlanded : ⟨tx, ok⟩ ∈ chain.landed)
    (hext : db.Extends db')
    (hsettled : ∀ id, db'.debited id + chain.drawnBy db' txs id = base id + chain.drawn db' id) :
    Settled base db' chain txs where
  nodup := (List.nodup_cons.1 h.nodup).2
  old tx' htx' := h.old tx' (List.mem_cons_of_mem _ htx')
  sentOld := h.sentOld
  sent tx' htx' := by
    rcases h.sent tx' htx' with hmem | hl
    · rcases List.mem_cons.1 hmem with rfl | hmem
      · exact Or.inr ⟨ok, hlanded⟩
      · exact Or.inl hmem
    · exact Or.inr hl
  known tx' htx' := ((h.known tx' (htx'.imp_left (List.mem_cons_of_mem _))).payee hext.miner).1
  price tx' htx' := h.price tx' (htx'.imp_left (List.mem_cons_of_mem _))
  settled := hsettled

/-- A transaction that failed draws nothing. -/
theorem failed (h : Settled base db chain (tx :: txs)) (hlanded : ⟨tx, false⟩ ∈ chain.landed) :
    Settled base db chain txs := by
  refine h.forget hlanded (.refl db) fun id => ?_
  have hold := h.settled id
  rw [Chain.drawnBy_cons, Chain.amountOf_of_not_landed (Broadcast.Chain.not_landed_of_failed hlanded)] at hold
  simpa using hold

/-- The debit of a finalised transaction takes its place. -/
theorem debit (h : Settled base db chain (tx :: txs)) (hlanded : ⟨tx, true⟩ ∈ chain.landed) {m : Miner}
    (hm : db.miners.find? tx.minerPubkey = some m) (hhas : db.rewards.Has m.id)
    (hq : decreaseQuery ⟨m.id, tx.item.amount⟩ db = some ((), db')) : Settled base db' chain txs := by
  obtain ⟨-, -, -, -, he⟩ := decreaseQuery_spec hhas hq
  have hpayee : db'.payee = db.payee := by
    have hminers : db'.miners = db.miners := by rw [he]
    funext tx'
    rw [Database.payee, Database.payee, hminers]
  refine h.forget hlanded (extends_of_decrease hq) fun id => ?_
  have hold := h.settled id
  have htx : db.payee tx = some m.id := by rw [Database.payee, hm]; rfl
  have hamount : chain.amountOf tx = tx.item.amount.toNat := if_pos hlanded
  rw [Chain.drawnBy_cons, htx, hamount] at hold
  rw [debited_of_decrease hhas hq, Chain.drawnBy, Chain.drawn, hpayee]
  simp only [Option.some.injEq, Chain.drawnBy, Chain.drawn] at hold
  show (if m.id = id then tx.item.amount.toNat else 0) + db.debited id + _ = _
  omega

/-- Only a transaction without a debit can still be finalised. -/
theorem land (h : Settled base db chain txs) {ok : Bool} (hland : chain.land? tx ok = some chain') :
    Settled base db chain' txs := by
  obtain ⟨hsent, hnew, hnext, hsents, hlanded⟩ := Broadcast.Chain.land?_eq_some hland
  have hmem : tx ∈ txs := by
    rcases h.sent tx hsent with hmem | ⟨ok', hl⟩
    · exact hmem
    · exact absurd rfl (hnew _ hl)
  refine ⟨h.nodup, hnext ▸ h.old, hsents ▸ hnext ▸ h.sentOld, fun tx' htx' => ?_, hsents ▸ h.known, hsents ▸ h.price,
    fun id => ?_⟩
  · rw [hsents] at htx'
    refine (h.sent tx' htx').imp_right fun ⟨ok', hl⟩ => ⟨ok', ?_⟩
    rw [hlanded]
    exact List.mem_cons_of_mem _ hl
  · have hall : chain'.drawn db id =
        (if db.payee tx = some id then if ok then tx.item.amount.toNat else 0 else 0) + chain.drawn db id := by
      rw [Chain.drawn, hlanded]
      exact sumAt_cons _ _ _
    have hby : chain'.drawnBy db txs id =
        chain.drawnBy db txs id + if db.payee tx = some id then if ok then tx.item.amount.toNat else 0 else 0 := by
      refine sumAt_add_at h.nodup hmem ?_ (fun tx' _ hne => ?_) _
      · have hnot : ⟨tx, true⟩ ∉ chain.landed := fun hl => hnew _ hl rfl
        rw [Chain.amountOf_of_not_landed hnot]
        cases ok <;> simp [Chain.amountOf, hlanded, hnot]
      · simp [Chain.amountOf, hlanded, hne]
    have hold := h.settled id
    rw [hall, hby]
    omega

end Settled

/-! ### `claim_system` -/

/-- The price that was found for the item, and that a transaction that is being booked was finalised. -/
structure Checked (chain : Chain) (pc : ClaimPc) : Prop where
  price : ∀ {miner item createsAta claimAmount}, pc = .blockhash miner item createsAta claimAmount →
    claimAmount ≤ item.amount
  seen : ∀ {tx}, pc.seen? = some tx → ⟨tx, true⟩ ∈ chain.landed

theorem Checked.idle (chain : Chain) : Checked chain .idle where
  price h := by cases h
  seen h := by cases h

namespace Treasury

/-- The transaction that a step leaves behind. -/
def leaves (s : Treasury) : Action → List ClaimTx
  | .claimStep input => (s.claim.givesUp input).toList
  | _ => []

variable {now : ℕ} {m m' : ClaimMemory} {i : ClaimInput} {pc pc' : ClaimPc} {base : MinerId → ℕ} {left : List ClaimTx}

theorem checked_of_claimStep (hc : Checked m.chain pc) (h : ClaimStep now m i pc m' pc') : Checked m'.chain pc' := by
  cases h with
  | stay | poolClaimed | addTxn | gotTxn | addClaim => exact ⟨by rintro _ _ _ _ ⟨⟩ <;> exact hc.price rfl, hc.seen⟩
  | price hp => exact ⟨by rintro _ _ _ _ ⟨⟩; exact le_of_priceOf hp, by rintro _ ⟨⟩⟩
  | finalized hl => exact ⟨by rintro _ _ _ _ ⟨⟩, by rintro _ ⟨⟩; exact hl⟩
  | gotMiner | noMiner | gotPool | noPool | decrease => exact ⟨by rintro _ _ _ _ ⟨⟩, hc.seen⟩
  | _ => exact ⟨by rintro _ _ _ _ ⟨⟩, by rintro _ ⟨⟩⟩

theorem settled_of_claimStep (hs : Settled base m.db m.chain (pc.open?.toList ++ left)) (hc : Checked m.chain pc)
    (hitem : ∀ {k item}, pc.item? = some (k, item) → m.db.Registered k)
    (hminer : ∀ {k id}, pc.miner? = some (k, id) → ∃ miner, m.db.miners.find? k = some miner ∧ miner.id = id)
    (h : pc.step now m i = some (m', pc')) :
    Settled base m'.db m'.chain (pc'.open?.toList ++ ((pc.givesUp i).toList ++ left)) := by
  cases ClaimPc.step_sound h with
  | stay _ hretry => rcases hretry with rfl | ⟨o, rfl⟩ <;> exact hs
  | @build miner item createsAta claimAmount =>
    obtain ⟨row, hrow, -⟩ := registered_iff.1 (hitem rfl)
    exact hs.build rfl ⟨row, hrow⟩ (hc.price rfl)
  | sent => exact hs.send List.mem_cons_self
  | @resend tx attempts =>
    have hgives : ClaimPc.givesUp (.send false) (.send tx attempts) = none := by
      refine if_neg fun hmax => ?_
      simp [ClaimPc.step, hmax] at h
    rw [hgives]
    exact hs.send List.mem_cons_self
  | @abandon tx attempts hmax =>
    have hgives : ClaimPc.givesUp (.send false) (.send tx attempts) = some tx := by simp [ClaimPc.givesUp, hmax]
    rw [hgives]
    exact hs.send List.mem_cons_self
  | failed hl => exact hs.failed hl
  | decrease hq =>
    obtain ⟨row, hrow, rfl⟩ := hminer rfl
    obtain ⟨row', hrow', hhas⟩ := registered_iff.1 (hitem rfl)
    rw [hrow] at hrow'
    cases hrow'
    exact hs.debit (hc.seen rfl) hrow hhas hq
  | poolClaimed | addClaim => exact hs.extend id rfl
  | addTxn hl => exact hs.extend hl.extends.miner hl.debits
  | _ => exact hs

/-- The invariant of the treasury, with the transactions that were left behind. -/
structure Followed (base : MinerId → ℕ) (s : Treasury) (left : List ClaimTx) : Prop where
  known : s.Known
  accounted : s.db.Accounted
  checked : Checked s.chain s.claim
  settled : Settled base s.db s.chain (s.claim.open?.toList ++ left)

variable {su : Setup} {s s' : Treasury} {a : Action}

private theorem Followed.claim {input : ClaimInput} (hs : s.Followed base left) (h : step su s (.claimStep input) = some s') :
    s'.Followed base (s.leaves (.claimStep input) ++ left) := by
  have hstep := step_sound h
  have hknown := hs.known.step hstep
  have hacc := accounted_of_step hs.known hs.accounted hstep
  simp only [Treasury.step, stepClaim, Option.bind_eq_bind, Option.bind_eq_some_iff, Option.pure_def,
    Option.some.injEq] at h
  obtain ⟨⟨m, pc⟩, h, rfl⟩ := h
  exact ⟨hknown, hacc, checked_of_claimStep hs.checked (ClaimPc.step_sound h),
    settled_of_claimStep hs.settled hs.checked hs.known.claim hs.known.miner h⟩

theorem Followed.step (hs : s.Followed base left) (h : step su s a = some s') : s'.Followed base (s.leaves a ++ left) := by
  have hstep := step_sound h
  have hknown := hs.known.step hstep
  have hacc := accounted_of_step hs.known hs.accounted hstep
  cases hstep with
  | claim => exact hs.claim h
  | @land tx ok c hland =>
    obtain ⟨-, -, -, -, hlanded⟩ := Broadcast.Chain.land?_eq_some hland
    refine ⟨hknown, hacc, ⟨hs.checked.price, fun htx => ?_⟩, hs.settled.land hland⟩
    rw [hlanded]
    exact List.mem_cons_of_mem _ (hs.checked.seen htx)
  | payout _ hpay =>
    have hgrows := grows_of_payoutStep hpay
    exact ⟨hknown, hacc, hs.checked, hs.settled.extend hgrows.ext.miner hgrows.debits⟩
  | mineCall hcall =>
    have hgrows := grows_of_mineStep hcall
    exact ⟨hknown, hacc, hs.checked, hs.settled.extend hgrows.ext.miner hgrows.debits⟩
  | @signup o id pubkey =>
    have hgrows := grows_of_signup o id pubkey s.db
    exact ⟨hknown, hacc, hs.checked, hs.settled.extend hgrows.ext.miner hgrows.debits⟩
  | _ => exact ⟨hknown, hacc, hs.checked, hs.settled⟩

theorem Followed.idles {t : Treasury} (hs : s.Followed base left) (h : s.Idles t) : t.Followed base left := by
  have hknown : t.Known := hs.known.idles h
  obtain ⟨now, db, hledger, rfl⟩ := h.exists
  exact ⟨hknown, hledger.grows.accounted hs.accounted, hs.checked, hs.settled.extend hledger.extends.miner hledger.debits⟩

end Treasury

namespace Server

variable {su : ServerSetup} {s : Server} {a : Action}

/-- The claim transaction that a step leaves behind. -/
def leaves (s : Server) : Action → List ClaimTx
  | .claimStep input => (s.claim.givesUp input).toList
  | _ => []

theorem leaves_of_treasuryAction {b : Treasury.Action} (h : s.treasuryAction? su a = some b) :
    s.treasury.leaves b = s.leaves a := by
  unfold treasuryAction? at h
  split at h <;> try split at h
  all_goals cases h
  all_goals rfl

theorem leaves_of_idle (h : s.treasuryAction? su a = none) : s.leaves a = [] := by
  cases a with
  | claimStep input => cases h
  | _ => rfl

end Server

/-! ### The life of a deployment -/

namespace Deployment

variable {su : ServerSetup} {d d' : Deployment} {a : Action} {base : MinerId → ℕ} {left : List ClaimTx}

/-- The claim transactions of all processes. -/
def chain (d : Deployment) : Chain :=
  match d.phase with
  | .starting _ chain _ => chain
  | .up _ _ s => s.claimChain

/-- The claim transaction in process, until it is debited. -/
def open? (d : Deployment) : Option ClaimTx :=
  match d.phase with
  | .starting _ _ _ => none
  | .up _ _ s => s.claim.open?

/-- The transaction that a step leaves behind: it is given up, or its process ends before the debit. -/
def leaves (d : Deployment) (a : Action) : List ClaimTx :=
  match a, d.phase with
  | .server b, .up _ _ s => s.leaves b
  | .restart _, .up _ _ s => s.claim.open?.toList
  | _, _ => []

/-- An observer of the transactions that are left behind. -/
def watchLeft (d : Deployment) (a : Action) (left : List ClaimTx) : List ClaimTx := d.leaves a ++ left

/-- The finalised transfers to a miner without a debit. -/
def owed (d : Deployment) (left : List ClaimTx) (id : MinerId) : ℕ :=
  d.chain.drawnBy d.db (d.open?.toList ++ left) id

def Followed (base : MinerId → ℕ) (d : Deployment) (left : List ClaimTx) : Prop :=
  match d.phase with
  | .starting _ chain s => s.Valid ∧ s.mem.db.Accounted ∧ Settled base s.mem.db chain left
  | .up _ _ s => s.db.InStep ∧ s.treasury.Followed base left

/-- A step of the tasks, of one pool with one row. -/
private theorem server_followed {s s' : Server} {b : Server.Action} (hin : s.db.InStep)
    (hs : s.treasury.Followed base left) (h : Server.step su s b = some s') :
    s'.db.InStep ∧ s'.treasury.Followed base (s.leaves b ++ left) := by
  refine ⟨Server.step_inStep hin h, ?_⟩
  rcases hb : s.treasuryAction? su b with _ | c
  · rw [Server.leaves_of_idle hb]
    exact hs.idles (Server.treasury_idles h hb)
  · rw [← Server.leaves_of_treasuryAction hb]
    exact hs.step (Server.treasury_step h hb)

/-- No transfer depends on the pool. -/
private theorem setPool_followed {s : Server} (hin : s.db.InStep) (hs : s.treasury.Followed base left)
    (pool : Option Pool) : (s.setPool pool).db.InStep ∧ (s.setPool pool).treasury.Followed base left := by
  obtain ⟨hreward, hrow⟩ := hin
  obtain ⟨⟨hqueue, hrequests, hclaim, hminer⟩, hacc, hchecked, hsettled⟩ := hs
  exact ⟨⟨hreward, hrow⟩, ⟨hqueue, hrequests, hclaim, hminer⟩, hacc, hchecked, hsettled.extend id rfl⟩

theorem Followed.step (hd : d.Followed base left) (h : step su d a = some d') : d'.Followed base (d.watchLeft a left) := by
  obtain ⟨phase, earlier⟩ := d
  cases phase with
  | starting now chain s =>
    obtain ⟨hvalid, hacc, hsettled⟩ := hd
    cases a with
    | tick =>
      cases h
      exact ⟨hvalid, hacc, hsettled⟩
    | land tx ok =>
      obtain ⟨c, hland, rfl⟩ := Option.map_eq_some_iff.1 h
      exact ⟨hvalid, hacc, hsettled.land hland⟩
    | validate input =>
      obtain ⟨s', hs', rfl⟩ := Option.map_eq_some_iff.1 h
      obtain ⟨hvalid', hadds⟩ := hvalid.step hs'
      refine ⟨hvalid', fun id => ?_, hsettled.extend hadds.miner hadds.debits⟩
      have hold := hacc id
      rwa [hadds.balance, Database.debited, Database.credited, hadds.debits, hadds.credits]
    | restart env =>
      cases h
      exact ⟨⟨hvalid.inStep, trivial⟩, hacc, hsettled⟩
    | server b => cases h
    | spawn =>
      obtain ⟨env, ⟨db, more⟩, pc⟩ := s
      cases pc with
      | spawn config =>
        cases h
        exact ⟨hvalid.inStep, spawned_known _ _ _ _, hacc, .idle _, hsettled⟩
      | _ => cases h
  | up config more s =>
    obtain ⟨hin, hfollowed⟩ := hd
    cases a with
    | server b =>
      obtain ⟨⟨more', s'⟩, hs', rfl⟩ := Option.map_eq_some_iff.1 h
      rcases Server.stepPools_cases hs' with hstep | ⟨o, rfl, hstep⟩ | ⟨o, pool, rfl, rfl⟩
      · exact server_followed hin hfollowed hstep
      · exact server_followed hin hfollowed hstep
      · -- a call of `claim_system` gives nothing up
        have hnone : s.leaves (.claimStep (.call o)) = [] := rfl
        show _ ∧ (s.setPool pool).treasury.Followed base (s.leaves (.claimStep (.call o)) ++ left)
        rw [hnone]
        exact setPool_followed hin hfollowed pool
    | restart env =>
      cases h
      exact ⟨⟨hin, trivial⟩, hfollowed.accounted, hfollowed.settled⟩
    | _ => cases h

/-- However often the process ends and whatever `claim_system` gives up: the items of all finalised transfers to a miner
are what was debited from it and what it is still owed a debit for, that is the items of the transaction in process and of
those left behind, once each.  No transaction that was ever sent pays more than its item.  So a miner has drawn and still
has exactly what it was credited, and what was left behind on top of it. -/
theorem transfers_settled (su : ServerSetup) (env : StartupEnv) {db : Database} {x : Deployment × List ClaimTx}
    {as : List Action} (hin : db.InStep) (hacc : db.Accounted)
    (h : run (watched (step su) watchLeft) (start env db, []) as = some x) :
    (x.1.open?.toList ++ x.2).Nodup ∧ (∀ tx ∈ x.1.chain.sent, tx.claimAmount ≤ tx.item.amount) ∧ ∀ id,
      x.1.db.debited id + x.1.owed x.2 id = db.debited id + x.1.chain.drawn x.1.db id ∧
      x.1.db.balance id + db.debited id + x.1.chain.drawn x.1.db id = x.1.db.credited id + x.1.owed x.2 id ∧
      x.1.chain.received x.1.db id ≤ x.1.chain.drawn x.1.db id := by
  have h0 : (start env db).Followed db.debited [] := ⟨⟨hin, trivial⟩, hacc, .empty db⟩
  have hx : x.1.Followed db.debited x.2 :=
    run_invariant' (I := fun x : Deployment × List ClaimTx => x.1.Followed db.debited x.2)
      (fun hx hstep => watched_invariant (J := fun x : Deployment × List ClaimTx => x.1.Followed db.debited x.2)
        (D := fun _ _ => True) (fun hd _ hstep => hd.step hstep) hx trivial hstep) h0 h
  obtain ⟨⟨phase, earlier⟩, left⟩ := x
  obtain ⟨hacc', hsettled⟩ : (Deployment.mk phase earlier).db.Accounted ∧
      Settled db.debited (Deployment.mk phase earlier).db (Deployment.mk phase earlier).chain
        ((Deployment.mk phase earlier).open?.toList ++ left) := by
    cases phase with
    | starting => exact hx.2
    | up => exact ⟨hx.2.accounted, hx.2.settled⟩
  refine ⟨hsettled.nodup, fun tx htx => hsettled.price tx (Or.inr htx), fun id => ?_⟩
  have hsum := hsettled.settled id
  have hledger := hacc' id
  refine ⟨hsum, ?_, Chain.received_le_drawn (fun l hl => hsettled.price l.tx (Or.inr (Broadcast.Chain.landedSent _ l hl))) _ _⟩
  simp only [owed]
  omega

/-- A miner claims what it has, and the transaction is sent and finalised. -/
def claimAndPay (tx : ClaimTx) : List Server.Action :=
  [.claimRequest (.direct tx.minerPubkey)] ++ List.replicate 2 (.claimRequestStep 0 (.call .executed)) ++
    [.claimRequestStep 0 (.tokenAccount .uiAmount), .claimRequestStep 0 .insert, .claimStep (.pick tx.minerPubkey),
      .claimStep (.tokenAccount .uiAmount), .claimStep (.blockhash true), .claimStep (.send true), .landClaim tx true]

/-- The transaction is seen finalised and debited, and `update_pool_claimed` is executed twice. -/
def bookPaid : List Server.Action :=
  [.claimStep (.status (.finalized true))] ++ List.replicate 5 (.claimStep (.call .executed))

/-- The process ends after a claim was paid; the next one inserts a second pool, and is asked for the same balance. -/
def crashBeforeDebit : List Action :=
  validateCalls 5 ++ [.spawn] ++ (claimAndPay (Treasury.exampleTx 0 0)).map .server ++ startWithSecondPool ++
    (claimAndPay (Treasury.exampleTx 1 0) ++ bookPaid).map .server

/-- The balance is paid twice and debited once: the first transfer is what the miner is owed a debit for.  The claim is
added to both rows of the pool each time. -/
theorem transfers_settled_example :
    ∃ x, run (watched (step Serving.exampleServerSetup) watchLeft)
        (start exampleEnv (Database.single (filled 7) 5000000000), []) crashBeforeDebit = some x ∧
      x.2 = [Treasury.exampleTx 0 0] ∧ x.1.pools.more = [⟨2, 0, 10000000000⟩] ∧ x.1.db.debited 1 = 5000000000 ∧
        x.1.owed x.2 1 = 5000000000 ∧ x.1.db.debited 1 + x.1.owed x.2 1 = 0 + x.1.chain.drawn x.1.db 1 := by
  obtain ⟨x, h, hleft, hmore, hdebited, howed⟩ : ∃ x, run (watched (step Serving.exampleServerSetup) watchLeft)
        (start exampleEnv (Database.single (filled 7) 5000000000), []) crashBeforeDebit = some x ∧
      x.2 = [Treasury.exampleTx 0 0] ∧ x.1.pools.more = [⟨2, 0, 10000000000⟩] ∧ x.1.db.debited 1 = 5000000000 ∧
        x.1.owed x.2 1 = 5000000000 := exists_of_run (by decide +kernel)
  exact ⟨x, h, hleft, hmore, hdebited, howed,
    ((transfers_settled _ exampleEnv (Server.single_inStep _ _) (Treasury.single_accounted _ _) h).2.2 1).1⟩

end Deployment

end BitzPool
