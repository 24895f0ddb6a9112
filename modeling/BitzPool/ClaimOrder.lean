import BitzPool.TreasurySteps

/-!
# The order in which `claim_system` tries the claims

`claim_system` takes the first item of the map's iteration, and the iteration does not change while the map is
unchanged.  Two failures remove their item (the amount does not cover the token account, no blockhash); the others leave
it in the queue: five failed sends, a transaction that failed, and one that is not finalised within 120 seconds.  After
one of these the same item is the first one again, so it is tried again and again while the others wait
(`others_tried_first`).
-/

namespace BitzPool

open Transition

/-- The key of the item that `claim_system` leaves in the queue when it ends an attempt with a step. -/
def ClaimPc.leaves? : ClaimInput → ClaimPc → Option Pubkey
  | .send false, .send tx attempts => if maxSends ≤ attempts + 1 then some tx.minerPubkey else none
  | .status (.finalized false), .poll tx | .expire, .poll tx => some tx.minerPubkey
  | _, _ => none

/-- The key of the item in process. -/
def ClaimPc.current? (pc : ClaimPc) : Option Pubkey := pc.item?.map Prod.fst

/-- Where an attempt ends without removing its item. -/
theorem ClaimPc.step_of_leaves {now : ℕ} {m m' : ClaimMemory} {i : ClaimInput} {pc pc' : ClaimPc} {k : Pubkey}
    (hl : pc.leaves? i = some k) (h : pc.step now m i = some (m', pc')) :
    pc.current? = some k ∧ m'.queue = m.queue ∧ pc' = .idle := by
  unfold leaves? at hl
  split at hl
  · next tx attempts =>
    split at hl <;> cases hl
    next hmax =>
    rw [step, if_neg Bool.false_ne_true, if_pos hmax] at h
    cases h
    exact ⟨rfl, rfl, rfl⟩
  · cases hl
    rw [step] at h
    split at h <;> cases h
    exact ⟨rfl, rfl, rfl⟩
  · cases hl
    cases h
    exact ⟨rfl, rfl, rfl⟩
  · cases hl

/-- Otherwise a step picks an item, goes on with it, or removes it. -/
theorem ClaimStep.of_leaves_none {now : ℕ} {m m' : ClaimMemory} {i : ClaimInput} {pc pc' : ClaimPc}
    (h : ClaimStep now m i pc m' pc') (hl : pc.leaves? i = none) :
    (∃ k, i = .pick k ∧ pc = .idle ∧ k ∈ m.queue ∧ m'.queue = m.queue ∧ pc'.current? = some k) ∨
      (∀ k, i ≠ .pick k) ∧ (m'.queue = m.queue ∧ pc'.current? = pc.current? ∨
        ∃ k, pc.current? = some k ∧ m'.queue = m.queue.erase k ∧ pc' = .idle) := by
  cases h with
  | stay _ hi =>
    refine Or.inr ⟨?_, Or.inl ⟨rfl, rfl⟩⟩
    rintro k rfl
    rcases hi with hi | ⟨o, hi⟩ <;> cases hi
  | @pick k item hk =>
    have hmem : k ∈ m.queue := AList.lookup_isSome.1 (Option.isSome_iff_exists.2 ⟨item, hk⟩)
    exact Or.inl ⟨k, rfl, rfl, hmem, rfl, rfl⟩
  | abandon hmax => simp [ClaimPc.leaves?, hmax] at hl
  | failed | expire => cases hl
  | remove | drop => exact Or.inr ⟨fun k => nofun, Or.inr ⟨_, rfl, rfl, rfl⟩⟩
  | _ => exact Or.inr ⟨fun k => nofun, Or.inl ⟨rfl, rfl⟩⟩

/-- The server, and the order in which the iteration of the queue yields its keys. -/
structure Iterating where
  treasury : Treasury
  order : List Pubkey

namespace Iterating

/-- A step of a task, and the order after it, should it change the queue. -/
structure Action where
  task : Treasury.Action
  order : List Pubkey

/-- The key that the step picks. -/
def Action.pick? (a : Action) : Option Pubkey :=
  match a.task with
  | .claimStep (.pick m) => some m
  | _ => none

def Action.isClaim (a : Action) : Bool := a.task matches .claimStep _

/-- The key of the item that the step leaves in the queue. -/
def leaves? (x : Iterating) (a : Action) : Option Pubkey :=
  match a.task with
  | .claimStep input => x.treasury.claim.leaves? input
  | _ => none

/-- `claim_system` picks the first key.  While the queue is unchanged, so is the order; no request changes the queue. -/
def step (su : Setup) (x : Iterating) (a : Action) : Option Iterating :=
  if a.pick?.all fun m => x.order.head? = some m then
    match x.treasury.step su a.task with
    | none => none
    | some t =>
      if t.queue.entries = x.treasury.queue.entries then some ⟨t, x.order⟩
      else if a.isClaim = true ∧ a.order.Perm t.queue.keys then some ⟨t, a.order⟩
      else none
  else none

/-- The keys that were picked so far, the latest first. -/
def watchPicks (_ : Iterating) (a : Action) (tried : List Pubkey) : List Pubkey :=
  match a.pick? with
  | some m => m :: tried
  | none => tried

/-- An item that was tried before is selected again only when all other items in the queue have been tried since. -/
def Fair (x : Iterating × List Pubkey) (a : Action) : Prop :=
  ∀ m ∈ a.pick?, x.1.treasury.claim = .idle → x.1.order.head? = some m → m ∈ x.2 →
    ∀ k ∈ x.1.treasury.queue.keys, k ≠ m → k ∈ x.2.takeWhile fun k' => k' ≠ m

/-- A step that leaves an item in the queue at the end of an attempt finds no other item there. -/
def LeavesAlone (x : Iterating) (a : Action) : Prop := ∀ m ∈ x.leaves? a, ∀ k ∈ x.treasury.queue.keys, k = m

instance (x : Iterating × List Pubkey) (a : Action) : Decidable (Fair x a) :=
  have : ∀ m, Decidable (∀ k ∈ x.1.treasury.queue.keys, k ≠ m → k ∈ x.2.takeWhile fun k' => k' ≠ m) :=
    fun _ => List.decidableBAll _ _
  Option.decidableForallMem a.pick?

instance (x : Iterating) (a : Action) : Decidable (x.LeavesAlone a) :=
  have : ∀ m, Decidable (∀ k ∈ x.treasury.queue.keys, k = m) := fun _ => List.decidableBAll _ _
  Option.decidableForallMem (x.leaves? a)

/-! ### Steps -/

/-- The step leaves the queue and its order alone. -/
def SameQueue (x x' : Iterating) : Prop := x'.treasury.queue = x.treasury.queue ∧ x'.order = x.order

/-- What a step does to the item in process, the queue and its order. -/
inductive Step (x : Iterating) (a : Action) (x' : Iterating) : Prop
  | stay : a.pick? = none → x.leaves? a = none → x.SameQueue x' →
      x'.treasury.claim.current? = x.treasury.claim.current? → Step x a x'
  | pick {m : Pubkey} : a.pick? = some m → x.leaves? a = none → x.SameQueue x' → x.order.head? = some m →
      m ∈ x.treasury.queue → x.treasury.claim = .idle → x'.treasury.claim.current? = some m → Step x a x'
  | leave {m : Pubkey} : a.pick? = none → x.leaves? a = some m → x.SameQueue x' →
      x.treasury.claim.current? = some m → x'.treasury.claim = .idle → Step x a x'
  | remove {m : Pubkey} : a.pick? = none → x.leaves? a = none → x'.treasury.queue = x.treasury.queue.erase m →
      x.SameQueue x' ∨ x'.order.Perm x'.treasury.queue.keys → x.treasury.claim.current? = some m →
      x'.treasury.claim = .idle → Step x a x'

variable {su : Setup} {x x' : Iterating} {a : Action}

theorem step_eq_some (h : step su x a = some x') :
    (∀ m ∈ a.pick?, x.order.head? = some m) ∧ x.treasury.step su a.task = some x'.treasury ∧
      (x.SameQueue x' ∨ x'.treasury.queue ≠ x.treasury.queue ∧ a.isClaim = true ∧
        x'.order.Perm x'.treasury.queue.keys) := by
  unfold step at h
  split at h
  · next hall =>
    have hpick : ∀ m ∈ a.pick?, x.order.head? = some m := by
      intro m hm
      rw [Option.mem_def.1 hm] at hall
      exact of_decide_eq_true hall
    split at h
    · cases h
    · next t ht =>
      split at h
      · next hsame =>
        cases h
        exact ⟨hpick, ht, Or.inl ⟨AList.ext hsame, rfl⟩⟩
      · next hchanged =>
        split at h <;> cases h
        next hperm => exact ⟨hpick, ht, Or.inr ⟨fun hsame => hchanged (congrArg AList.entries hsame), hperm⟩⟩
  · cases h

/-- A step of another task. -/
theorem step_other (h : step su x a = some x') (ha : a.isClaim = false) :
    x.SameQueue x' ∧ x'.treasury.claim = x.treasury.claim := by
  obtain ⟨-, hstep, hqueue⟩ := step_eq_some h
  obtain ⟨t', order'⟩ := x'
  obtain ⟨task, order⟩ := a
  constructor
  · rcases hqueue with hsame | ⟨-, hclaim, -⟩
    · exact hsame
    · rw [ha] at hclaim
      cases hclaim
  · cases Treasury.step_sound hstep with
    | claim => cases ha
    | _ => rfl

/-- A step of `claim_system`. -/
theorem step_claim {input : ClaimInput} {order : List Pubkey} (h : step su x ⟨.claimStep input, order⟩ = some x') :
    ∃ m, x.treasury.claim.step x.treasury.now ⟨x.treasury.db, x.treasury.queue, x.treasury.chain⟩ input =
      some (m, x'.treasury.claim) ∧ x'.treasury.queue = m.queue := by
  obtain ⟨-, hstep, -⟩ := step_eq_some h
  obtain ⟨⟨m, pc⟩, hpc, he⟩ := Option.bind_eq_some_iff.1 hstep
  obtain ⟨t', order'⟩ := x'
  cases he
  exact ⟨m, hpc, rfl⟩

theorem step_sound (h : step su x a = some x') : Step x a x' := by
  obtain ⟨hhead, -, hqueue⟩ := step_eq_some h
  have hsame : x'.treasury.queue = x.treasury.queue → x.SameQueue x' := fun hq => hqueue.resolve_right fun hne => hne.1 hq
  by_cases ha : a.isClaim = true
  · obtain ⟨task, order⟩ := a
    cases task with
    | claimStep input =>
      obtain ⟨m, hpc, hm⟩ := step_claim h
      rcases hl : x.treasury.claim.leaves? input with _ | k
      · rcases (ClaimPc.step_sound hpc).of_leaves_none hl with ⟨k, rfl, hidle, hk, hq, hcurrent⟩ | ⟨hpick, hrest⟩
        · exact .pick rfl hl (hsame (hm.trans hq)) (hhead k rfl) hk hidle hcurrent
        · have hnone : Action.pick? ⟨.claimStep input, order⟩ = none := by
            cases input with
            | pick k => exact absurd rfl (hpick k)
            | _ => rfl
          rcases hrest with ⟨hq, hcurrent⟩ | ⟨k, hcurrent, hq, hidle⟩
          · exact .stay hnone hl (hsame (hm.trans hq)) hcurrent
          · exact .remove hnone hl (hm.trans hq) (hqueue.imp_right fun hperm => hperm.2.2) hcurrent hidle
      · obtain ⟨hcurrent, hq, hidle⟩ := ClaimPc.step_of_leaves hl hpc
        have hnone : Action.pick? ⟨.claimStep input, order⟩ = none := by
          cases input with
          | pick k => cases hl
          | _ => rfl
        exact .leave hnone hl (hsame (hm.trans hq)) hcurrent hidle
    | _ => cases ha
  · obtain ⟨hsame, hclaim⟩ := step_other h (Bool.eq_false_iff.2 ha)
    obtain ⟨task, order⟩ := a
    cases task with
    | claimStep input => exact absurd rfl ha
    | _ => exact .stay rfl rfl hsame (congrArg ClaimPc.current? hclaim)

/-! ### The invariant -/

/-- The order is one of the queue; the item in process was picked last and is queued; and the item that was picked last
is the first one as long as it is queued. -/
structure Ordered (x : Iterating × List Pubkey) : Prop where
  order : x.1.order.Perm x.1.treasury.queue.keys
  current : ∀ m, x.1.treasury.claim.current? = some m → x.2.head? = some m ∧ m ∈ x.1.treasury.queue
  last : ∀ m, x.2.head? = some m → m ∈ x.1.treasury.queue → x.1.order.head? = some m

/-- An item that was tried and is still queued is in process, or the only one. -/
def Waiting (x : Iterating × List Pubkey) : Prop :=
  ∀ m ∈ x.2, m ∈ x.1.treasury.queue → x.1.treasury.claim.current? = some m ∨ ∀ k ∈ x.1.treasury.queue, k = m

theorem watchPicks_of_none (x : Iterating) (h : a.pick? = none) (tried : List Pubkey) : watchPicks x a tried = tried := by
  rw [watchPicks, h]

theorem watchPicks_of_some (x : Iterating) {m : Pubkey} (h : a.pick? = some m) (tried : List Pubkey) :
    watchPicks x a tried = m :: tried := by
  rw [watchPicks, h]

theorem Ordered.step {tried : List Pubkey} (hx : Ordered (x, tried)) (h : Step x a x') :
    Ordered (x', watchPicks x a tried) := by
  obtain ⟨horder, hcurrent, hlast⟩ := hx
  cases h with
  | stay hnone _ hsame hcur =>
    rw [watchPicks_of_none x hnone]
    constructor <;> dsimp only
    · rw [hsame.1, hsame.2]
      exact horder
    · rw [hcur, hsame.1]
      exact hcurrent
    · rw [hsame.1, hsame.2]
      exact hlast
  | @pick m hpick _ hsame hhead hmem _ hcur =>
    rw [watchPicks_of_some x hpick]
    constructor <;> dsimp only
    · rw [hsame.1, hsame.2]
      exact horder
    · intro k hk
      rw [hcur] at hk
      cases hk
      rw [hsame.1]
      exact ⟨rfl, hmem⟩
    · intro k hk _
      cases hk
      rw [hsame.2]
      exact hhead
  | leave hnone _ hsame _ hidle =>
    rw [watchPicks_of_none x hnone]
    constructor <;> dsimp only
    · rw [hsame.1, hsame.2]
      exact horder
    · intro k hk
      rw [hidle] at hk
      cases hk
    · rw [hsame.1, hsame.2]
      exact hlast
  | @remove m hnone _ hqueue hperm hcur hidle =>
    rw [watchPicks_of_none x hnone]
    constructor <;> dsimp only
    · rcases hperm with hsame | hperm
      · rw [hsame.1, hsame.2]
        exact horder
      · exact hperm
    · intro k hk
      rw [hidle] at hk
      cases hk
    · -- the item picked last is the one that is removed
      intro k hk hmem
      rw [(hcurrent m hcur).1] at hk
      cases hk
      rw [hqueue] at hmem
      exact absurd rfl (AList.mem_erase.1 hmem).1

theorem Waiting.step {tried : List Pubkey} (hx : Waiting (x, tried)) (hC : x.LeavesAlone a) (h : Step x a x') :
    Waiting (x', watchPicks x a tried) := by
  cases h with
  | stay hnone _ hsame hcur =>
    rw [watchPicks_of_none x hnone]
    intro m hm
    dsimp only
    rw [hsame.1, hcur]
    exact hx m hm
  | @pick m hpick _ hsame _ _ hidle hcur =>
    rw [watchPicks_of_some x hpick]
    intro k hk hmem
    dsimp only at hk hmem ⊢
    rw [hsame.1] at hmem ⊢
    rcases List.mem_cons.1 hk with rfl | hk
    · exact Or.inl hcur
    · -- nothing was in process before
      refine Or.inr ((hx k hk hmem).resolve_left fun hcur => ?_)
      rw [hidle] at hcur
      cases hcur
  | @leave m hnone hl hsame hcur hidle =>
    rw [watchPicks_of_none x hnone]
    intro k hk hmem
    dsimp only at hk hmem ⊢
    rw [hsame.1] at hmem ⊢
    have honly : ∀ k ∈ x.treasury.queue, k = m := fun k hk => hC m hl k (AList.mem_keys.1 hk)
    rw [honly k hmem]
    exact Or.inr honly
  | @remove m hnone _ hqueue _ hcur hidle =>
    rw [watchPicks_of_none x hnone]
    intro k hk hmem
    dsimp only at hk hmem ⊢
    rw [hqueue] at hmem ⊢
    obtain ⟨hne, hmem⟩ := AList.mem_erase.1 hmem
    refine Or.inr ((hx k hk hmem).elim (fun hcur' => ?_) fun honly k' hk' => honly k' (AList.mem_erase.1 hk').2)
    rw [hcur] at hcur'
    exact absurd (Option.some.inj hcur').symm hne

theorem Fair.of_waiting {x : Iterating × List Pubkey} (hx : Ordered x) (hw : Waiting x) : Fair x a := by
  intro m _ hidle hhead htried k hk hne
  have hmem : m ∈ x.1.treasury.queue := by
    have horder : m ∈ x.1.order := List.mem_of_mem_head? hhead
    exact AList.mem_keys.2 (hx.order.subset horder)
  rcases hw m htried hmem with hcur | honly
  · rw [hidle] at hcur
    cases hcur
  · exact absurd (honly k (AList.mem_keys.2 hk)) hne

/-- While `claim_system` sleeps, nothing changes for it. -/
private theorem sleeps {z : Iterating} {bs : List Action} (hbs : ∀ b ∈ bs, b.isClaim = false)
    (h : run (step su) x bs = some z) : x.SameQueue z ∧ z.treasury.claim = x.treasury.claim := by
  have hkeep : ∀ {s : Iterating} {b : Action} {s' : Iterating}, x.SameQueue s ∧ s.treasury.claim = x.treasury.claim →
      b.isClaim = false → step su s b = some s' → x.SameQueue s' ∧ s'.treasury.claim = x.treasury.claim := by
    rintro s b s' ⟨hsame, hclaim⟩ hb hstep
    obtain ⟨hsame', hclaim'⟩ := step_other hstep hb
    exact ⟨⟨hsame'.1.trans hsame.1, hsame'.2.trans hsame.2⟩, hclaim'.trans hclaim⟩
  have hnone : Along (step su) (fun _ b => b.isClaim = false) x bs := along_of_forall fun b hb _ => hbs b hb
  exact run_invariant hkeep ⟨⟨rfl, rfl⟩, rfl⟩ hnone h

/-- An item that is left behind while another waits is selected next, with the other still waiting. -/
private theorem not_fair_next {y y' z z' : Iterating} {tried : List Pubkey} {b : Action} (hy : Ordered (y, tried))
    (h : step su y a = some y') (hC : ¬ y.LeavesAlone a) {bs : List Action} (hbs : ∀ b ∈ bs, b.isClaim = false)
    (hrun : run (step su) y' bs = some z) (hb : b.pick? ≠ none) (hpick : step su z b = some z') : ¬ Fair (z, tried) b := by
  obtain ⟨m, hl, k, hk, hne⟩ : ∃ m ∈ y.leaves? a, ∃ k ∈ y.treasury.queue.keys, k ≠ m := by
    simpa only [LeavesAlone, not_forall, exists_prop] using hC
  obtain ⟨hsame, hcur, hidle⟩ : y.SameQueue y' ∧ y.treasury.claim.current? = some m ∧ y'.treasury.claim = .idle := by
    cases step_sound h with
    | @leave m' _ hl' hsame hcur hidle =>
      cases hl'.symm.trans hl
      exact ⟨hsame, hcur, hidle⟩
    | stay _ hnone | pick _ hnone | remove _ hnone => cases hnone.symm.trans hl
  obtain ⟨hlast, hmem⟩ := hy.current m hcur
  obtain ⟨hsame', hidle'⟩ := sleeps hbs hrun
  have hfirst : z.order.head? = some m := by
    rw [hsame'.2, hsame.2]
    exact hy.last m hlast hmem
  obtain ⟨p, hp⟩ := Option.ne_none_iff_exists'.1 hb
  have hpm : p = m := Option.some.inj (((step_eq_some hpick).1 p hp).symm.trans hfirst)
  subst hpm
  intro hfair
  have htried : k ∈ tried.takeWhile fun k' => k' ≠ p := by
    refine hfair p hp (hidle'.trans hidle) hfirst (List.mem_of_mem_head? hlast) k ?_ hne
    dsimp only
    rw [hsame'.1, hsame.1]
    exact hk
  obtain ⟨rest, rfl⟩ : ∃ rest, tried = p :: rest := List.head?_eq_some_iff.1 hlast
  rw [List.takeWhile_cons_of_neg (by simp)] at htried
  cases htried

/-- In every run whose attempts leave an item in the queue only when no other is there, every item that is selected again
has been waited for by all others; and after an attempt that does not, the next selection is not like that. -/
theorem others_tried_first (su : Setup) (x : Iterating) (horder : x.order.Perm x.treasury.queue.keys)
    (hidle : x.treasury.claim = .idle) :
    (∀ as, Along (step su) LeavesAlone x as → Along (watched (step su) watchPicks) Fair (x, []) as) ∧
      ∀ as y tried a y', run (watched (step su) watchPicks) (x, []) as = some (y, tried) → step su y a = some y' →
        ¬ y.LeavesAlone a → ∀ bs z, (∀ b ∈ bs, b.isClaim = false) → run (step su) y' bs = some z →
          ∀ b z', b.pick? ≠ none → step su z b = some z' → ¬ Fair (z, tried) b := by
  have hstart : Ordered (x, []) := by
    refine ⟨horder, fun m hm => ?_, fun m hm => by cases hm⟩
    rw [hidle] at hm
    cases hm
  constructor
  · intro as hC
    refine along_of_invariant (I := fun x => Ordered x ∧ Waiting x) (C := fun x a => x.1.LeavesAlone a) ?_ ?_
      ⟨hstart, fun m hm => by cases hm⟩ hC.watched
    · rintro ⟨s, tried⟩ a ⟨s', tried'⟩ ⟨hs, hw⟩ hleaves hstep
      obtain ⟨hstep, rfl⟩ := watched_eq_some.1 hstep
      exact ⟨hs.step (step_sound hstep), hw.step hleaves (step_sound hstep)⟩
    · rintro s a ⟨hs, hw⟩ _
      exact .of_waiting hs hw
  · intro as y tried a y' h hstep hC bs z hbs hrun b z' hb hpick
    have hy : Ordered (y, tried) := by
      refine run_invariant' (I := Ordered) ?_ hstart h
      rintro ⟨s, tried⟩ a ⟨s', tried'⟩ hs hstep
      obtain ⟨hstep, rfl⟩ := watched_eq_some.1 hstep
      exact hs.step (step_sound hstep)
    exact not_fair_next hy hstep hC hbs hrun hb hpick

/-! ### Two claims -/

def exampleItem (pubkey : Pubkey) (ticket : ℕ) : ClaimsQueueItem := ⟨pubkey, 5000000000, ticket⟩

/-- Two claims are queued, and `claim_system` is about to look for the first. -/
def exampleTwoClaims : Iterating where
  treasury := { Treasury.start (Database.single (filled 7) 5000000000) with
    queue := (AList.singleton (filled 8) (exampleItem (filled 8) 1)).insert (filled 7) (exampleItem (filled 7) 0)
    tickets := 2 }
  order := [filled 7, filled 8]

/-- Steps of `claim_system`, with the order after the first that changes the queue. -/
def claimSteps (order : List Pubkey) (inputs : List ClaimInput) : List Action :=
  inputs.map fun input => ⟨.claimStep input, order⟩

/-- The first claim is given up for want of a blockhash, which removes it, and then the second is tried. -/
theorem others_tried_first_example :
    Along (watched (step exampleSetup) watchPicks) Fair (exampleTwoClaims, [])
      (claimSteps [filled 8]
        [.pick (filled 7), .tokenAccount .uiAmount, .blockhash false, .remove, .pick (filled 8)]) :=
  (others_tried_first exampleSetup exampleTwoClaims (by decide) rfl).1 _ (by decide +kernel)

/-- No send of the first claim is accepted: it stays, and is selected again before the second was tried. -/
theorem first_tried_again :
    ¬ Along (watched (step exampleSetup) watchPicks) Fair (exampleTwoClaims, [])
      (claimSteps [] ([.pick (filled 7), .tokenAccount .uiAmount, .blockhash true] ++ List.replicate 5 (.send false) ++
        [.pick (filled 7)])) ∧
      (run (step exampleSetup) exampleTwoClaims
        (claimSteps [] ([.pick (filled 7), .tokenAccount .uiAmount, .blockhash true] ++ List.replicate 5 (.send false) ++
          [.pick (filled 7)]))).isSome := by
  constructor <;> decide +kernel

end Iterating

end BitzPool
