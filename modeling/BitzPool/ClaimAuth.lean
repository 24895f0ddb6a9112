import BitzPool.ClaimQueued
import BitzPool.Connections
import BitzPool.Lib.LittleEndian

/-!
# Who authorised a claim

An item gets into the queue by `claim_direct`, which pays the miner itself, or by `post_claim_v2`, which wants a signature
of the miner over the time, the receiver and the amount.  The time has to lie in the last 30 seconds.  The test subtracts
without a check for the sign, and a time in the future wraps around: `le_of_sub_lt` says why it is refused.

Neither of the two messages a miner signs has a frame around it: what a claim signs and what a login signs are told apart
by their lengths (`signedMsg_ne_loginMsg`), and the parts of a claim by their positions (`signedMsg_inj`).
`claims_authorised` puts this together, for every sequence of requests and every clock, also one that jumps.
-/

namespace BitzPool

open Transition Update

/-! ### What is signed -/

theorem toLeBytes_eq_encode (n : UInt64) : toLeBytes n = LittleEndian.encode 8 n.toNat := rfl

@[simp] theorem length_toLeBytes (n : UInt64) : (toLeBytes n).length = 8 := by
  rw [toLeBytes_eq_encode, LittleEndian.length_encode]

theorem toLeBytes_inj {n m : UInt64} (h : toLeBytes n = toLeBytes m) : n = m :=
  UInt64.toNat_inj.1 (LittleEndian.encode_injOn n.toNat_lt m.toNat_lt h)

/-- The signed bytes of a claim determine its time, receiver and amount. -/
theorem ClaimParamsV2.signedMsg_inj {p q : ClaimParamsV2} (h : p.signedMsg = q.signedMsg) :
    p.timestamp = q.timestamp ∧ p.receiverPubkey = q.receiverPubkey ∧ p.amount = q.amount := by
  obtain ⟨hfront, hamount⟩ := List.append_inj h (by simp)
  obtain ⟨htimestamp, hreceiver⟩ := List.append_inj hfront (by simp)
  exact ⟨toLeBytes_inj htimestamp, List.Vector.toList_injective hreceiver, toLeBytes_inj hamount⟩

theorem ClaimParamsV2.signedMsg_ne_loginMsg (p : ClaimParamsV2) (timestamp : UInt64) :
    p.signedMsg ≠ loginMsg timestamp := by
  intro h
  have hlength := congrArg List.length h
  simp [signedMsg, loginMsg] at hlength

/-- The message is for something else than this claim: a login, or a claim with another time, receiver or amount. -/
def ClaimParamsV2.ForOther (p : ClaimParamsV2) (msg : List UInt8) : Prop :=
  (∃ timestamp, msg = loginMsg timestamp) ∨ ∃ q : ClaimParamsV2, msg = q.signedMsg ∧
    (q.timestamp ≠ p.timestamp ∨ q.receiverPubkey ≠ p.receiverPubkey ∨ q.amount ≠ p.amount)

theorem ClaimParamsV2.not_forOther (p : ClaimParamsV2) : ¬ p.ForOther p.signedMsg := by
  rintro (⟨timestamp, h⟩ | ⟨q, h, hne⟩)
  · exact p.signedMsg_ne_loginMsg timestamp h
  · obtain ⟨htimestamp, hreceiver, hamount⟩ := signedMsg_inj h
    rcases hne with hne | hne | hne
    · exact hne htimestamp.symm
    · exact hne hreceiver.symm
    · exact hne hamount.symm

/-- Signatures are unforgeable: whatever verifies under a key was signed with it. -/
def Unforgeable (verify : Verify) (signed : Pubkey → List UInt8 → Prop) : Prop :=
  ∀ signature k msg, verify signature k msg = true → signed k msg

/-! ### The handlers -/

/-- A difference that wraps around is large, so that a small one is the time that has passed. -/
theorem le_of_sub_lt {now timestamp : UInt64} (hnow : 30 ≤ now) (h : now - timestamp < 30) :
    timestamp ≤ now ∧ now.toNat < timestamp.toNat + 30 := by
  rw [UInt64.le_iff_toNat_le] at hnow ⊢
  rw [UInt64.lt_iff_toNat_lt, UInt64.toNat_sub] at h
  have h30 : (30 : UInt64).toNat = 30 := rfl
  have hnow' := now.toNat_lt
  have htimestamp := timestamp.toNat_lt
  omega

/-- What `post_claim_v2` has checked of a request, at `now`, before it looks at the queue. -/
def ClaimRequest.Passes (verify : Verify) (now : UInt64) : ClaimRequest → Prop
  | .direct _ => True
  | .v2 p => verify p.signature p.minerPubkey p.signedMsg = true ∧ p.timestamp ≤ now ∧ now.toNat < p.timestamp.toNat + 30

/-- The request has passed, or is answered. -/
def RequestPc.Cleared (verify : Verify) (now : UInt64) (r : ClaimRequest) (pc : RequestPc) : Prop :=
  (∃ answer, pc = .answered answer) ∨ r.Passes verify now

theorem ClaimRequest.arrive_cleared (verify : Verify) {now : UInt64} (hnow : 30 ≤ now) (r : ClaimRequest) :
    (r.arrive verify now.toNat).Cleared verify now r := by
  cases r with
  | direct pubkey => exact Or.inr trivial
  | v2 p =>
    simp only [ClaimRequest.arrive, UInt64.ofNat_toNat]
    split
    · exact Or.inl ⟨_, rfl⟩
    · next hfresh =>
      split
      · next hverify => exact Or.inr ⟨hverify, le_of_sub_lt hnow (UInt64.not_le.1 hfresh)⟩
      · exact Or.inl ⟨_, rfl⟩

theorem RequestStep.cleared {verify : Verify} {now : UInt64} {r : ClaimRequest} {db : Database} {queue : ClaimsQueue}
    {clock : ℕ} {i : RequestInput} {pc pc' : RequestPc} {ins : Option Insertion}
    (h : RequestStep db queue clock i pc pc' ins) (hs : pc.Cleared verify now r) : pc'.Cleared verify now r := by
  cases h with
  | refuse | insert => exact Or.inl ⟨_, rfl⟩
  | _ =>
    refine Or.inr (hs.resolve_left ?_)
    rintro ⟨answer, he⟩
    cases he

/-- The item of an insertion is for the miner itself, or signed for as it is, at a time in the last 30 seconds. -/
def Insertion.Authorised (verify : Verify) (ins : Insertion) : ClaimRequest × UInt64 → Prop
  | (.direct _, _) => ins.receiverPubkey = ins.minerPubkey
  | (.v2 p, now) =>
    ins = ⟨p.minerPubkey, p.receiverPubkey, p.amount⟩ ∧
      verify p.signature ins.minerPubkey
        (toLeBytes p.timestamp ++ ins.receiverPubkey.toList ++ toLeBytes ins.amount) = true ∧
      p.timestamp ≤ now ∧ now.toNat < p.timestamp.toNat + 30

theorem Insertion.authorised {verify : Verify} {now : UInt64} {r : ClaimRequest} {ins : Insertion} {answer : Response}
    (hserves : (RequestPc.insert ins answer).Serves r) (hcleared : (RequestPc.insert ins answer).Cleared verify now r) :
    ins.Authorised verify (r, now) := by
  have hpasses : r.Passes verify now := hcleared.resolve_left fun ⟨_, he⟩ => by cases he
  cases r with
  | direct pubkey =>
    obtain ⟨rfl, hreceiver⟩ := hserves
    exact hreceiver
  | v2 p =>
    cases hserves
    exact ⟨rfl, hpasses⟩

/-! ### Runs -/

/-- What an observer notes: every request with the clock at its arrival, and everything put into the queue, with the
number of the request. -/
structure ClaimRecord where
  arrivals : List (ClaimRequest × UInt64)
  placed : List (ℕ × Insertion)

namespace Treasury

/-- A step with the server's clock at any value. -/
def stepAt (su : Setup) (s : Treasury) (x : UInt64 × Action) : Option Treasury :=
  Treasury.step su { s with now := x.1.toNat } x.2

def watchClaims (s : Treasury) : UInt64 × Action → ClaimRecord → ClaimRecord
  | (now, .request r), w => { w with arrivals := w.arrivals ++ [(r, now)] }
  | (_, .requestStep i input), w =>
    { w with placed := w.placed ++ (s.insertion (.requestStep i input)).toList.map fun ins => (i, ins) }
  | _, w => w

/-- Everything in the record is authorised by the request that placed it, and the queue has nothing else. -/
structure Accountable (verify : Verify) (s : Treasury) (w : ClaimRecord) : Prop where
  placed : ∀ x ∈ w.placed, ∃ arrival, w.arrivals[x.1]? = some arrival ∧ x.2.Authorised verify arrival
  queued : ∀ k item, s.queue.lookup k = some item → ∃ i, (i, ⟨k, item.receiverPubkey, item.amount⟩) ∈ w.placed

/-- The invariant: besides, the handlers are where their requests sent them. -/
structure Traced (verify : Verify) (s : Treasury) (w : ClaimRecord) : Prop extends Accountable verify s w where
  handlers : ∀ {i : ℕ} {pc : RequestPc}, s.requests[i]? = some pc →
    ∃ r now, w.arrivals[i]? = some (r, now) ∧ pc.Serves r ∧ pc.Cleared verify now r
  length : w.arrivals.length = s.requests.length

variable {su : Setup} {s s' : Treasury} {a : Action} {w : ClaimRecord} {now : UInt64}

/-- A handler goes on, and may put an item into the queue on the way. -/
private theorem Traced.set (hs : Traced su.verify s w) {db : Database} {queue : ClaimsQueue} {clock i : ℕ}
    {input : RequestInput} {pc pc' : RequestPc} {ins : Option Insertion} (hpc : s.requests[i]? = some pc)
    (hstep : RequestStep db queue clock input pc pc' ins)
    (hqueue : ∀ k item, s'.queue.lookup k = some item →
      s.queue.lookup k = some item ∨ ins = some ⟨k, item.receiverPubkey, item.amount⟩)
    (hrequests : s'.requests = s.requests.set i pc') :
    Traced su.verify s' { w with placed := w.placed ++ ins.toList.map fun x => (i, x) } where
  placed x hx := by
    rcases List.mem_append.1 hx with hx | hx
    · exact hs.placed x hx
    · obtain ⟨new, hnew, rfl⟩ := List.mem_map.1 hx
      obtain ⟨r, now, harrival, hserves, hcleared⟩ := hs.handlers hpc
      refine ⟨(r, now), harrival, ?_⟩
      cases hstep with
      | insert =>
        obtain rfl := List.mem_singleton.1 hnew
        exact Insertion.authorised hserves hcleared
      | _ => cases hnew
  queued k item hk := by
    rcases hqueue k item hk with hk | hk
    · obtain ⟨j, hj⟩ := hs.queued k item hk
      exact ⟨j, List.mem_append_left _ hj⟩
    · exact ⟨i, List.mem_append_right _ (by simp [hk])⟩
  handlers {j pc₁} hj := by
    rw [hrequests] at hj
    rcases getElem?_set_cases hj with ⟨rfl, rfl⟩ | ⟨-, hj⟩
    · obtain ⟨r, now, harrival, hserves, hcleared⟩ := hs.handlers hpc
      exact ⟨r, now, harrival, hstep.serves hserves, hstep.cleared hcleared⟩
    · exact hs.handlers hj
  length := by
    rw [hrequests, List.length_set]
    exact hs.length

/-- Steps that only take items out of the queue. -/
private theorem Traced.sub (hs : Traced su.verify s w)
    (hqueue : ∀ {k item}, s'.queue.lookup k = some item → s.queue.lookup k = some item)
    (hrequests : s'.requests = s.requests) : Traced su.verify s' w where
  placed := hs.placed
  queued k item hk := hs.queued k item (hqueue hk)
  handlers hj := hs.handlers (hrequests ▸ hj)
  length := hs.length.trans (congrArg List.length hrequests.symm)

private theorem Traced.request (hs : Traced su.verify s w) (hnow : 30 ≤ now) (r : ClaimRequest)
    (hqueue : s'.queue = s.queue) (hrequests : s'.requests = s.requests ++ [r.arrive su.verify now.toNat]) :
    Traced su.verify s' { w with arrivals := w.arrivals ++ [(r, now)] } where
  placed x hx := by
    obtain ⟨arrival, harrival, hauthorised⟩ := hs.placed x hx
    refine ⟨arrival, ?_, hauthorised⟩
    simp only
    rw [List.getElem?_append_left (List.getElem?_eq_some_iff.1 harrival).1, harrival]
  queued k item hk := hs.queued k item (hqueue ▸ hk)
  handlers {j pc} hj := by
    rw [hrequests] at hj
    rcases getElem?_concat_cases hj with hj | ⟨rfl, rfl⟩
    · obtain ⟨r', now', harrival, hpc⟩ := hs.handlers hj
      refine ⟨r', now', ?_, hpc⟩
      simp only
      rw [List.getElem?_append_left (List.getElem?_eq_some_iff.1 harrival).1, harrival]
    · refine ⟨r, now, ?_, r.arrive_serves _ _, r.arrive_cleared _ hnow⟩
      simp only
      rw [← hs.length, List.getElem?_concat_length]
  length := by simp [hrequests, hs.length]

theorem Traced.step (hs : Traced su.verify s w) (hnow : 30 ≤ now) (hstep : stepAt su s (now, a) = some s') :
    Traced su.verify s' (s.watchClaims (now, a) w) := by
  cases step_sound hstep with
  | @request r => exact hs.request hnow r rfl rfl
  | @check i input pc pc' hpc hcheck =>
    have hpc : s.requests[i]? = some pc := hpc
    simp only [watchClaims, insertion_of_check hpc hcheck]
    exact hs.set hpc hcheck (fun _ _ hk => Or.inl hk) rfl
  | @insert i ins answer hpc =>
    have hpc : s.requests[i]? = some (.insert ins answer) := hpc
    simp only [watchClaims, insertion_of_insert hpc]
    have hinsert : RequestStep s.db s.queue now.toNat .insert (.insert ins answer) (.answered answer) (some ins) := .insert
    refine hs.set hpc hinsert (fun k item hk => ?_) rfl
    rcases lookup_insert_cases hk with ⟨rfl, rfl⟩ | ⟨-, hk⟩
    · exact Or.inr rfl
    · exact Or.inl hk
  | claim hclaim => exact hs.sub (lookup_of_claimStep hclaim) rfl
  | _ => exact hs.sub id rfl

/-- If signatures are unforgeable, the miner of an item placed by `post_claim_v2` has signed for this item and nothing
else: not a login, nor another time, receiver or amount. -/
theorem Accountable.signed {verify : Verify} (hs : Accountable verify s w) {signed : Pubkey → List UInt8 → Prop}
    (hunforgeable : Unforgeable verify signed) {x : ℕ × Insertion} (hx : x ∈ w.placed) {p : ClaimParamsV2}
    (harrival : w.arrivals[x.1]? = some (.v2 p, now)) :
    x.2 = ⟨p.minerPubkey, p.receiverPubkey, p.amount⟩ ∧ signed p.minerPubkey p.signedMsg ∧ ¬ p.ForOther p.signedMsg := by
  obtain ⟨arrival, harrival', hauthorised⟩ := hs.placed x hx
  cases harrival.symm.trans harrival'
  obtain ⟨hins, hverify, -⟩ := hauthorised
  rw [hins] at hverify
  exact ⟨hins, hunforgeable _ _ _ hverify, p.not_forOther⟩

/-- However the clock goes, as long as it stays at 30 or above, and whatever is requested and answered: all that was put
into the queue is authorised.  The signed bytes of a claim say what they are for, and are no login. -/
theorem claims_authorised (su : Setup) {s : Treasury} (h0 : s.Fresh) :
    (∀ as s' w, (∀ x ∈ as, 30 ≤ x.1) → run (watched (stepAt su) watchClaims) (s, ⟨[], []⟩) as = some (s', w) →
      Accountable su.verify s' w ∧
      ∀ signed, Unforgeable su.verify signed → ∀ x ∈ w.placed, ∀ p now, w.arrivals[x.1]? = some (.v2 p, now) →
        x.2 = ⟨p.minerPubkey, p.receiverPubkey, p.amount⟩ ∧ signed p.minerPubkey p.signedMsg ∧
          ¬ p.ForOther p.signedMsg) ∧
    (∀ p q : ClaimParamsV2, p.signedMsg = q.signedMsg →
      p.timestamp = q.timestamp ∧ p.receiverPubkey = q.receiverPubkey ∧ p.amount = q.amount) ∧
    ∀ (p : ClaimParamsV2) timestamp, p.signedMsg ≠ loginMsg timestamp := by
  refine ⟨fun as s' w hclock h => ?_, fun p q => p.signedMsg_inj, fun p => p.signedMsg_ne_loginMsg⟩
  have hstart : Traced su.verify s ⟨[], []⟩ := by
    refine ⟨⟨by simp, ?_⟩, ?_, ?_⟩ <;> simp [h0.queue, h0.requests]
  have hend : Traced su.verify s' w :=
    run_invariant (I := fun x : Treasury × ClaimRecord => Traced su.verify x.1 x.2) (C := fun _ x => 30 ≤ x.1)
      (fun {x a y} hx hnow hxy => by
        obtain ⟨hstep, hw⟩ := watched_eq_some.1 hxy
        rw [hw]
        exact hx.step hnow hstep)
      hstart (along_of_forall fun x hx _ => hclock x hx) h
  exact ⟨hend.toAccountable, fun _ hunforgeable _ hx _ _ harrival => hend.toAccountable.signed hunforgeable hx harrival⟩

/-- A claim of the miner in the examples, signed at time 100. -/
def timedParams : ClaimParamsV2 := { exampleParams with timestamp := 100 }

/-- The only signature that verifies is the one of this claim. -/
def signedSetup : Setup :=
  { exampleSetup with
    verify := fun signature k msg =>
      decide (signature = timedParams.signature ∧ k = timedParams.minerPubkey ∧ msg = timedParams.signedMsg) }

/-- The claim is sent at 110; it is sent again when the clock has been set back before it was signed. -/
def claimAndReplay : List (UInt64 × Action) :=
  [(110, .request (.v2 timedParams)), (110, .requestStep 0 .readQueue), (111, .requestStep 0 (.call .executed)),
    (111, .requestStep 0 (.call .executed)), (500, .requestStep 0 (.tokenAccount .uiAmount)),
    (500, .requestStep 0 .insert), (99, .request (.v2 timedParams))]

theorem claims_authorised_example :
    ∃ s' w, run (watched (stepAt signedSetup) watchClaims) (exampleStart, ⟨[], []⟩) claimAndReplay = some (s', w) ∧
      s'.requests = [.answered ⟨200, "SUCCESS"⟩, .answered ⟨401, "Timestamp too old."⟩] ∧
      w.placed = [(0, ⟨filled 7, filled 9, 3000000000⟩)] ∧ Accountable signedSetup.verify s' w ∧
      ∀ signed, Unforgeable signedSetup.verify signed → signed (filled 7) timedParams.signedMsg := by
  obtain ⟨⟨s', w⟩, h, hrequests, hplaced, harrivals⟩ : ∃ x,
      run (watched (stepAt signedSetup) watchClaims) (exampleStart, ⟨[], []⟩) claimAndReplay = some x ∧
        x.1.requests = [.answered ⟨200, "SUCCESS"⟩, .answered ⟨401, "Timestamp too old."⟩] ∧
        x.2.placed = [(0, ⟨filled 7, filled 9, 3000000000⟩)] ∧ x.2.arrivals[0]? = some (.v2 timedParams, 110) :=
    exists_of_run (by decide +kernel)
  obtain ⟨haccountable, hsigned⟩ := (claims_authorised signedSetup (start_fresh _)).1 _ _ _ (by decide +kernel) h
  exact ⟨s', w, h, hrequests, hplaced, haccountable, fun signed hunforgeable =>
    (hsigned signed hunforgeable _ (by rw [hplaced]; exact List.mem_singleton_self _) timedParams 110 harrivals).2.1⟩

end Treasury

end BitzPool
