import BitzPool.ClaimCover

/-!
# What becomes of a queued claim

`post_claim_v2` refuses a request while its miner has an item in the queue, but the look at the queue and the insertion
are separate steps, and `claim_direct`, which needs no signature, does not look.  So the item of an accepted
`post_claim_v2` request can be replaced by a handler that looked before it was queued, and by any `claim_direct` for its
miner.  `queued_claim_kept_iff` says that nothing else replaces it: `QueueWatch` marks those handlers, and the item stays
until `claim_system` removes it exactly as long as none of them inserts another claim.
-/

namespace BitzPool

open Keyed Transition Update

/-- The miner under whose key a handler will insert, if it does, without a look at the queue. -/
def RequestPc.unchecked? : RequestPc → Option Pubkey
  | .directRewards pubkey | .directLastClaim pubkey _ | .directTokenAccount pubkey _ => some pubkey
  | .v2Rewards p | .v2LastClaim p _ | .v2TokenAccount p => some p.minerPubkey
  | .insert ins _ => some ins.minerPubkey
  | .v2Queue _ | .answered _ => none

private theorem unchecked?_arrive {verify : Verify} {now : ℕ} {r : ClaimRequest} {k : Pubkey}
    (h : (r.arrive verify now).unchecked? = some k) : r = .direct k := by
  rcases r.arrive_cases verify now with ⟨pubkey, hr, he⟩ | ⟨p, -, he⟩ | ⟨answer, he⟩ <;> rw [he] at h <;> cases h
  exact hr

private theorem unchecked?_of_requestStep {db : Database} {queue : ClaimsQueue} {now : ℕ} {i : RequestInput}
    {pc pc' : RequestPc} {ins : Option Insertion} {k : Pubkey} (h : RequestStep db queue now i pc pc' ins)
    (hk : pc'.unchecked? = some k) : pc.unchecked? = some k ∨ k ∉ queue := by
  cases h with
  | v2Queue hq _ =>
    cases hk
    exact Or.inr hq
  | refuse | insert => cases hk
  | _ => exact Or.inl hk

/-- What an observer of a queued claim notes: for every request, whether its handler may insert under the claim's key
without having seen the claim in the queue; and whether `claim_system` has removed the claim. -/
structure QueueWatch where
  unchecked : List Bool
  removed : Bool
  deriving DecidableEq

namespace Treasury

/-- The marks when the claim has just been queued. -/
def startWatch (k : Pubkey) (s : Treasury) : QueueWatch :=
  ⟨s.requests.map fun pc => pc.unchecked? = some k, false⟩

def watchQueue (k : Pubkey) (s : Treasury) : Action → QueueWatch → QueueWatch
  | .request r, w => { w with unchecked := w.unchecked ++ [decide (r = .direct k)] }
  | .claimStep .remove, w => { w with removed := w.removed || decide (s.claim.item?.map Prod.fst = some k) }
  | _, w => w

/-- The claim is in the queue, or `claim_system` has removed it. -/
def Kept (ins : Insertion) (x : Treasury × QueueWatch) : Prop :=
  x.2.removed = true ∨ ∃ ticket, x.1.queue.lookup ins.minerPubkey = some ⟨ins.receiverPubkey, ins.amount, ticket⟩

def Action.inserts? : Action → Option ℕ
  | .requestStep i .insert => some i
  | _ => none

/-- The step is not the insertion of another claim under the key by a handler that has not seen the queued one. -/
def Undisturbed (ins : Insertion) (x : Treasury × QueueWatch) (a : Action) : Prop :=
  ∀ i ∈ a.inserts?, x.2.removed = false → x.2.unchecked[i]? = some true →
    ∀ new ∈ x.1.insertion a, new.minerPubkey = ins.minerPubkey → new = ins

instance (ins : Insertion) (x : Treasury × QueueWatch) (a : Action) : Decidable (Undisturbed ins x a) := by
  unfold Undisturbed
  infer_instance

/-- The marks are right. -/
structure Observed (ins : Insertion) (x : Treasury × QueueWatch) : Prop where
  kept : Kept ins x
  marked : x.2.removed = false → ∀ {i : ℕ} {pc : RequestPc}, x.1.requests[i]? = some pc →
    pc.unchecked? = some ins.minerPubkey → x.2.unchecked[i]? = some true
  length : x.2.unchecked.length = x.1.requests.length

variable {su : Setup} {s s' : Treasury} {a : Action} {ins : Insertion} {w : QueueWatch}

private theorem mem_queue_of_kept (h : Kept ins (s, w)) (hw : w.removed = false) : ins.minerPubkey ∈ s.queue := by
  rcases h with h | ⟨ticket, h⟩
  · rw [hw] at h
    cases h
  · exact AList.lookup_isSome.1 (by rw [h]; rfl)

/-- Steps that change neither the queue nor the requests. -/
private theorem Observed.same (hx : Observed ins (s, w)) (hqueue : s'.queue = s.queue)
    (hrequests : s'.requests = s.requests) : Observed ins (s', w) where
  kept := hx.kept.imp_right fun ⟨ticket, h⟩ => ⟨ticket, hqueue ▸ h⟩
  marked hw _ _ hpc hk := hx.marked hw (hrequests ▸ hpc) hk
  length := hx.length.trans (congrArg List.length hrequests.symm)

/-- A handler moves on, with or without an insertion. -/
private theorem Observed.set (hx : Observed ins (s, w)) {i : ℕ} {pc pc' : RequestPc} (hpc : s.requests[i]? = some pc)
    (hpc' : w.removed = false → pc'.unchecked? = some ins.minerPubkey → pc.unchecked? = some ins.minerPubkey)
    (hkept : Kept ins (s', w)) (hrequests : s'.requests = s.requests.set i pc') : Observed ins (s', w) where
  kept := hkept
  marked hw j pc₁ hj hk := by
    simp only [hrequests] at hj
    rcases getElem?_set_cases hj with ⟨rfl, rfl⟩ | ⟨-, hj⟩
    · exact hx.marked hw hpc (hpc' hw hk)
    · exact hx.marked hw hj hk
  length := by
    rw [hrequests, List.length_set]
    exact hx.length

/-- `claim_system` looks at the queue, or removes an item. -/
private theorem Observed.noted (hx : Observed ins (s, w)) (b : Bool) :
    Observed ins (s, { w with removed := w.removed || b }) where
  kept := hx.kept.imp_left fun h => by simp only at h; simp [h]
  marked hw _ _ hpc hk := hx.marked (Bool.or_eq_false_iff.1 hw).1 hpc hk
  length := hx.length

private theorem Observed.erase (hx : Observed ins (s, w)) {k : Pubkey} (hqueue : s'.queue = s.queue.erase k)
    (hrequests : s'.requests = s.requests) :
    Observed ins (s', { w with removed := w.removed || decide (some k = some ins.minerPubkey) }) where
  kept := by
    by_cases hk : k = ins.minerPubkey
    · exact Or.inl (by simp [hk])
    · rcases hx.kept with hremoved | ⟨ticket, h⟩
      · have hremoved : w.removed = true := hremoved
        exact Or.inl (by simp [hremoved])
      · refine Or.inr ⟨ticket, ?_⟩
        rw [hqueue, AList.lookup_erase_ne (Ne.symm hk)]
        exact h
  marked hw _ _ hpc hk := hx.marked (Bool.or_eq_false_iff.1 hw).1 (hrequests ▸ hpc) hk
  length := hx.length.trans (congrArg List.length hrequests.symm)

theorem Observed.step (hx : Observed ins (s, w)) (hC : Undisturbed ins (s, w) a) (hstep : Step su s a s') :
    Observed ins (s', s.watchQueue ins.minerPubkey a w) := by
  cases hstep with
  | @request r =>
    refine ⟨hx.kept, fun hw i pc hpc hk => ?_, ?_⟩
    · rcases getElem?_concat_cases hpc with hpc | ⟨rfl, rfl⟩
      · have hmark := hx.marked hw hpc hk
        simp only [watchQueue]
        rwa [List.getElem?_append_left (List.getElem?_eq_some_iff.1 hmark).1]
      · obtain rfl := unchecked?_arrive hk
        simp only [watchQueue, decide_true]
        rw [← hx.length, List.getElem?_concat_length]
    · simp only [watchQueue, List.length_append, hx.length]
      rfl
  | @check i input pc pc' hpc hstep =>
    refine Observed.set hx hpc (fun hw hk => ?_) hx.kept (Eq.refl (s.requests.set i pc'))
    exact (unchecked?_of_requestStep hstep hk).resolve_right fun hq => hq (mem_queue_of_kept hx.kept hw)
  | @insert i new answer hpc =>
    refine hx.set hpc (fun _ hk => by cases hk) ?_ rfl
    by_cases hkey : new.minerPubkey = ins.minerPubkey
    · by_cases hw : w.removed = true
      · exact Or.inl hw
      · have hw := Bool.eq_false_iff.2 hw
        have hmark := hx.marked hw hpc (congrArg some hkey)
        have hsame : new = ins := hC i rfl hw hmark new (by simp [insertion, hpc]) hkey
        rw [hsame]
        exact Or.inr ⟨s.tickets, AList.lookup_insert _⟩
    · rcases hx.kept with hremoved | ⟨ticket, h⟩
      · exact Or.inl hremoved
      · refine Or.inr ⟨ticket, ?_⟩
        rw [AList.lookup_insert_ne (Ne.symm hkey)]
        exact h
  | @claim input m pc hstep =>
    have hwatch : ∃ b, s.watchQueue ins.minerPubkey (.claimStep input) w = { w with removed := w.removed || b } := by
      cases input with
      | remove => exact ⟨_, rfl⟩
      | _ => exact ⟨false, by simp [watchQueue]⟩
    obtain ⟨b, hb⟩ := hwatch
    generalize hpc : s.claim = pc₀ at hstep
    cases hstep with
    | remove | drop =>
      simp only [watchQueue, hpc, ClaimPc.item?, ClaimPc.tx?, Option.map_some]
      exact hx.erase rfl rfl
    | _ =>
      rw [hb]
      exact (hx.noted b).same rfl rfl
  | _ => exact hx.same rfl rfl

private theorem undisturbed_of_kept {k : Pubkey}
    (h : ∀ y ∈ watched (Treasury.step su) (watchQueue k) (s, w) a, Kept ins y) : Undisturbed ins (s, w) a := by
  intro _ _ hw _ new hnew hkey
  obtain ⟨i, answer, rfl, hpc⟩ := exists_of_insertion hnew
  have hstep : Treasury.step su s (.requestStep i .insert) =
      some ({ s with requests := s.requests.set i (.answered answer) }.insertClaim (some new)) := by
    simp [Treasury.step, stepRequest, hpc, RequestPc.step]
  have hkept := h (_, s.watchQueue k (.requestStep i .insert) w) (watched_eq_some.2 ⟨hstep, rfl⟩)
  rcases hkept with hremoved | ⟨ticket, hlookup⟩
  · exact absurd (hremoved.symm.trans hw) (by simp)
  · simp only [hkey, AList.lookup_insert, Option.some.injEq, ClaimsQueueItem.mk.injEq] at hlookup
    obtain ⟨k', r', a'⟩ := new
    obtain ⟨k'', r'', a''⟩ := ins
    simp only at hkey hlookup
    rw [hkey, hlookup.1, hlookup.2.1]

/-- After `post_claim_v2` has answered SUCCESS for a claim, and whatever else happens: the claim stays in the queue until
`claim_system` removes it, in every state of a run, exactly when no handler that was past its look at the queue, and no
later `claim_direct` for the miner, inserts another claim under the key before. -/
theorem queued_claim_kept_iff (su : Setup) {s s₀ : Treasury} {i : ℕ} {ins : Insertion} {as : List Action}
    (hpc : s.requests[i]? = some (.insert ins ⟨200, "SUCCESS"⟩))
    (h0 : Treasury.step su s (.requestStep i .insert) = some s₀) :
    Along (watched (Treasury.step su) (watchQueue ins.minerPubkey))
        (fun x a => ∀ y ∈ watched (Treasury.step su) (watchQueue ins.minerPubkey) x a, Kept ins y)
        (s₀, startWatch ins.minerPubkey s₀) as ↔
      Along (watched (Treasury.step su) (watchQueue ins.minerPubkey)) (Undisturbed ins)
        (s₀, startWatch ins.minerPubkey s₀) as := by
  have hobserved : ∀ {x : Treasury × QueueWatch} {a : Action} {y : Treasury × QueueWatch}, Observed ins x →
      Undisturbed ins x a → watched (Treasury.step su) (watchQueue ins.minerPubkey) x a = some y → Observed ins y :=
    watched_invariant fun hx hC hstep => Observed.step hx hC (step_sound hstep)
  refine along_iff_of_invariant (I := Observed ins) hobserved (fun {x a} hx => ?_) ?_
  · exact ⟨undisturbed_of_kept, fun hC y hxy => (hobserved hx hC hxy).kept⟩
  · have hs₀ : s₀.queue.lookup ins.minerPubkey = some ⟨ins.receiverPubkey, ins.amount, s.tickets⟩ := by
      simp only [Treasury.step, stepRequest, hpc, RequestPc.step, Option.bind_eq_bind, Option.bind_some, insertClaim,
        Option.pure_def, Option.some.injEq] at h0
      rw [← h0]
      exact AList.lookup_insert _
    refine ⟨Or.inr ⟨s.tickets, hs₀⟩, fun _ {j pc} hj hk => ?_, List.length_map ..⟩
    simp only [startWatch, List.getElem?_map, hj, Option.map_some, hk, decide_true]

/-- A signed claim of the miner in the examples, to another receiver. -/
def exampleParams : ClaimParamsV2 := ⟨filled 7, List.Vector.replicate 64 0, 0, filled 9, 3000000000⟩

/-- A `post_claim_v2` request with these parameters, up to its answer. -/
def signedClaim (i : ℕ) : List Action :=
  [.request (.v2 exampleParams), .requestStep i .readQueue, .requestStep i (.call .executed),
    .requestStep i (.call .executed), .requestStep i (.tokenAccount .uiAmount), .requestStep i .insert]

/-- The server just before a `post_claim_v2` request inserts its claim, and just after. -/
def beforeSuccess : Treasury :=
  { exampleStart with requests := [.insert ⟨filled 7, filled 9, 3000000000⟩ ⟨200, "SUCCESS"⟩] }

def afterSuccess : Treasury :=
  { beforeSuccess with requests := [.answered ⟨200, "SUCCESS"⟩] }.insertClaim (some ⟨filled 7, filled 9, 3000000000⟩)

/-- A second signed claim of the miner is refused; the first is paid and removed. -/
def refusedAndPaid : List Action :=
  [.request (.v2 exampleParams), .requestStep 1 .readQueue] ++
    claimSend ⟨0, filled 7, ⟨filled 9, 3000000000, 0⟩, false, 3000000000⟩ ++
    claimBook ⟨0, filled 7, ⟨filled 9, 3000000000, 0⟩, false, 3000000000⟩

theorem queued_claim_kept_example :
    (∃ x, run (watched (Treasury.step exampleSetup) (watchQueue (filled 7)))
      (afterSuccess, startWatch (filled 7) afterSuccess) refusedAndPaid = some x ∧ x.2.removed = true ∧
        x.1.requests[1]? = some (.answered ⟨429, "QUEUED"⟩)) ∧
    Along (watched (Treasury.step exampleSetup) (watchQueue (filled 7)))
      (fun x a => ∀ y ∈ watched (Treasury.step exampleSetup) (watchQueue (filled 7)) x a,
        Kept ⟨filled 7, filled 9, 3000000000⟩ y)
      (afterSuccess, startWatch (filled 7) afterSuccess) refusedAndPaid := by
  have hpc : beforeSuccess.requests[0]? = some (.insert ⟨filled 7, filled 9, 3000000000⟩ ⟨200, "SUCCESS"⟩) := rfl
  exact ⟨exists_of_run (by decide +kernel), (queued_claim_kept_iff exampleSetup hpc rfl).2 (by decide +kernel)⟩

/-- The claim is queued and answered; then anybody's `claim_direct` for the miner replaces it, while `claim_system` has
not taken a step. -/
theorem queued_claim_replaced :
    ∃ s₀ s', run (Treasury.step exampleSetup) exampleStart (signedClaim 0) = some s₀ ∧
      s₀.requests = [.answered ⟨200, "SUCCESS"⟩] ∧ s₀.queue.lookup (filled 7) = some ⟨filled 9, 3000000000, 0⟩ ∧
      run (Treasury.step exampleSetup) s₀ ([.request (.direct (filled 7))] ++ directChecks 1 ++ [.requestStep 1 .insert]) =
        some s' ∧ s'.queue.lookup (filled 7) = some ⟨filled 7, 5000000000, 1⟩ := by
  obtain ⟨s₀, h0, hanswer, hqueue⟩ : ∃ s₀, run (Treasury.step exampleSetup) exampleStart (signedClaim 0) = some s₀ ∧
      s₀.requests = [.answered ⟨200, "SUCCESS"⟩] ∧ s₀.queue.lookup (filled 7) = some ⟨filled 9, 3000000000, 0⟩ :=
    exists_of_run (by decide +kernel)
  obtain ⟨s', h, hreplaced⟩ : ∃ s', run (Treasury.step exampleSetup) exampleStart
      (signedClaim 0 ++ ([.request (.direct (filled 7))] ++ directChecks 1 ++ [.requestStep 1 .insert])) = some s' ∧
        s'.queue.lookup (filled 7) = some ⟨filled 7, 5000000000, 1⟩ := exists_of_run (by decide +kernel)
  obtain ⟨t, ht, h⟩ := run_append.1 h
  cases h0.symm.trans ht
  exact ⟨s₀, s', h0, hanswer, hqueue, h, hreplaced⟩

end Treasury

end BitzPool
