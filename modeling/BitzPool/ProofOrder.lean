import BitzPool.EpochEntry

/-!
# The order of proofs

The pool learns of a new proof in two ways.  The RPC node answers with the current one; the websocket delivers one that
the account has had, perhaps late.  `chainStep` is the mining system beside the account's history.  A late proof is
recognised by its challenge if that is the last challenge, and only when it arrives.  `proof_never_back` says what this
takes: no other late proof passes, and no proof is written while a task holds an older one that it is about to write.
-/

namespace BitzPool

open Transition

/-! ### Places in a history -/

section History

variable {α : Type*} [DecidableEq α] {l : List α} {x y : α}

private theorem idxOf_le_of_getLast? (hl : l.Nodup) (hx : x ∈ l) (hy : l.getLast? = some y) : l.idxOf x ≤ l.idxOf y := by
  obtain ⟨l', rfl⟩ := List.getLast?_eq_some_iff.1 hy
  have hy' : y ∉ l' := by
    intro hmem
    exact (List.nodup_append.1 hl).2.2 y hmem y (List.mem_singleton_self y) rfl
  have hlt := List.idxOf_lt_length_of_mem hx
  rw [List.idxOf_append_of_notMem hy', List.idxOf_cons_self]
  simp only [List.length_append, List.length_singleton] at hlt
  omega

end History

/-! ### Proofs that are about to be written -/

def EpochOp.proof? : EpochOp → Option Proof
  | .setProof p => some p
  | _ => none

/-- The proofs that the main loop has decided to write. -/
def MainPc.held : MainPc → List Proof
  | .staleProof _ p => [p]
  | pc => pc.ops.filterMap EpochOp.proof?

def WatcherPc.held (pc : WatcherPc) : List Proof := pc.ops.filterMap EpochOp.proof?

def TrackerPc.held : TrackerPc → List Proof
  | .write p => [p]
  | .idle => []

theorem MainPc.held_of_waiting {pc : MainPc} (h : pc.waiting = true) : pc.held = [] := by
  cases pc <;> first | rfl | cases h

theorem MainPc.held_of_mined? {pc : MainPc} {r : MainRound} (h : pc.mined? = some r) : pc.held = [] := by
  cases pc <;> first | rfl | cases h

theorem MainPc.held_of_ops {pc : MainPc} {p : Proof} (h : .setProof p ∈ pc.ops) : p ∈ pc.held := by
  cases pc with
  | enter | discard => exact List.mem_filterMap.2 ⟨_, h, rfl⟩
  | _ => cases h

/-- What follows from an operation writes no proof. -/
theorem EpochOp.exec_held (cfg : RowId) (o : CallOutcome) (m : EpochMemory) (op : EpochOp) :
    (op.exec cfg o m).2.filterMap EpochOp.proof? = [] := by
  cases op with
  | addChallenge | verifyChallenge =>
    simp only [exec]
    split <;> rfl
  | _ => rfl

/-- A proof from the answer to `get_proof_and_config`. -/
theorem MainPc.answer_of_staleProof {dx : Drillx} {cfg : RowId} {now : ℤ} {rounds : ℕ} {m m' : MainMemory}
    {i : MainInput} {pc : MainPc} {ev : MainEvent} {r : MainRound} {p : Proof}
    (h : pc.step dx cfg now rounds m i = some (m', .staleProof r p, ev)) : i = .proofAndConfig (some p) := by
  cases MainPc.step_sound h with
  | wait _ hw => cases hw
  | check _ hm => cases hm
  | prepare hp =>
    cases pc with
    | attempt r₀ j =>
      cases i with
      | go =>
        simp only [step] at h
        split at h
        · cases h
        · split at h <;> cases h
      | proofAndConfig answer =>
        simp only [step] at h
        split at h
        · cases h
        · split at h
          · cases h
          · cases h
          · split at h <;> cases h
            rfl
      | status answer => cases answer <;> cases h
      | _ => cases h
    | staleProof | blockhash =>
      -- these go on with `discard`, `simulate` or the next attempt
      cases i with
      | blockhash ok => cases ok <;> simp [step] at h
      | status answer => cases answer <;> simp [step] at h
      | _ => simp [step] at h
    | _ => cases hp

/-- The main loop gets hold of a proof by an answer of the RPC node. -/
theorem MainPc.held_of_step {dx : Drillx} {cfg : RowId} {now : ℤ} {rounds : ℕ} {m m' : MainMemory} {i : MainInput}
    {pc pc' : MainPc} {ev : MainEvent} {p : Proof} (h : pc.step dx cfg now rounds m i = some (m', pc', ev))
    (hp : p ∈ pc'.held) : p ∈ pc.held ∨ i = .proofAndConfig (some p) ∨ i = .getProof (some p) := by
  have hstep := MainPc.step_sound h
  cases hstep with
  | wait _ hw => rw [held_of_waiting hw] at hp; cases hp
  | check _ hm => rw [held_of_mined? hm] at hp; cases hp
  | prepare _ hpc =>
    cases pc' with
    | staleProof r q =>
      cases List.mem_singleton.1 hp
      exact Or.inr (Or.inl (answer_of_staleProof h))
    | attempt | blockhash => cases hp
    | _ => cases hpc
  | @enterRpc r latest q =>
    cases List.mem_singleton.1 hp
    exact Or.inr (Or.inr rfl)
  | enterOp | discardOp =>
    have hops := hp
    simp only [held, ops, List.filterMap_append, EpochOp.exec_held, List.nil_append] at hops
    obtain ⟨op, hop, hproof⟩ := List.mem_filterMap.1 hops
    exact Or.inl (List.mem_filterMap.2 ⟨op, List.mem_cons_of_mem _ hop, hproof⟩)
  | _ => cases hp

theorem WatcherStep.held {cfg : RowId} {m m' : EpochMemory} {w : Watcher} {i : WatcherInput} {pc : WatcherPc}
    {op : Option EpochOp} {p : Proof} (h : WatcherStep cfg m w i m' pc op) (hp : p ∈ pc.held) :
    p ∈ w.pc.held ∨ i = .getProof (some p) := by
  cases h with
  | move _ hpc =>
    rw [WatcherPc.held, hpc] at hp
    cases hp
  | enterWs => cases hp
  | enterRpc =>
    cases List.mem_singleton.1 hp
    exact Or.inr rfl
  | op hpc =>
    simp only [WatcherPc.held, WatcherPc.ops, List.filterMap_append, EpochOp.exec_held, List.nil_append] at hp
    obtain ⟨op, hop, hproof⟩ := List.mem_filterMap.1 hp
    refine Or.inl (List.mem_filterMap.2 ⟨op, ?_, hproof⟩)
    rw [hpc]
    exact List.mem_cons_of_mem _ hop

namespace Mining

/-- The proofs that some task has decided to write. -/
def held (s : Mining) : List Proof := s.tracker.held ++ s.main.held ++ s.watchers.flatMap fun w => w.pc.held

/-- An answer of the RPC node to a request for the proof. -/
def Action.answer? : Action → Option Proof
  | .main (.proofAndConfig p) | .main (.getProof p) | .watcher _ (.getProof p) => p
  | _ => none

def Action.notified? : Action → Option Proof
  | .notify p => some p
  | _ => none

variable {su : MiningSetup} {s s' : Mining} {a : Action} {p : Proof}

theorem mem_held : p ∈ s.held ↔ p ∈ s.tracker.held ∨ p ∈ s.main.held ∨ ∃ w ∈ s.watchers, p ∈ w.pc.held := by
  simp [held]

private theorem mem_held_of_nextOp? (h : s.nextOp? a = some (.setProof p)) : p ∈ s.held := by
  rw [mem_held]
  unfold nextOp? at h
  split at h
  · have hmem : EpochOp.setProof p ∈ s.main.ops := List.mem_of_mem_head? h
    exact Or.inr (Or.inl (MainPc.held_of_ops hmem))
  · obtain ⟨w, hw, h⟩ := Option.bind_eq_some_iff.1 h
    have hmem : EpochOp.setProof p ∈ w.pc.ops := List.mem_of_mem_head? h
    exact Or.inr (Or.inr ⟨w, List.mem_of_getElem? hw, List.mem_filterMap.2 ⟨_, hmem, rfl⟩⟩)
  · cases h

/-- A proof that is written was held. -/
theorem mem_held_of_nextProof? (h : s.nextProof? a = some p) : p ∈ s.held := by
  unfold nextProof? at h
  split at h
  · split at h
    · next hmain =>
      cases h
      rw [mem_held, hmain]
      exact Or.inr (Or.inl (List.mem_singleton_self _))
    · cases h
  · split at h
    · next htracker =>
      cases h
      rw [mem_held, htracker]
      exact Or.inl (List.mem_singleton_self _)
    · cases h
  · split at h
    · next hop =>
      cases h
      exact mem_held_of_nextOp? hop
    · cases h

private theorem nextProof?_of_notified? (h : a.notified? = some p) : s.nextProof? a = none := by
  cases a with
  | notify => rfl
  | _ => cases h

/-- A task gets hold of a proof by an answer of the RPC node, or by a notification that passes. -/
theorem held_of_step (h : step su s a = some s') (hp : p ∈ s'.held) :
    p ∈ s.held ∨ a.answer? = some p ∨ a.notified? = some p ∧ s.mem.lastChallenge ≠ p.challenge := by
  have hstep := step_sound h
  rw [mem_held] at hp ⊢
  cases a with
  | main input =>
    simp only [step, stepMain, Option.bind_eq_bind, Option.bind_eq_some_iff, Option.pure_def, Option.some.injEq] at h
    obtain ⟨⟨m, pc, ev⟩, hmain, h⟩ := h
    simp only at h
    subst h
    rcases hp with hp | hp | ⟨w, hw, hp⟩
    · rw [event_tracker] at hp
      exact Or.inl (Or.inl hp)
    · rw [event_main] at hp
      rcases MainPc.held_of_step hmain hp with hp | rfl | rfl
      · exact Or.inl (Or.inr (Or.inl hp))
      · exact Or.inr (Or.inl rfl)
      · exact Or.inr (Or.inl rfl)
    · rcases watcher_of_event (MainPc.step_sound hmain) hw with htop | ⟨w₀, hw₀, hpc⟩
      · rw [htop] at hp
        cases hp
      · exact Or.inl (Or.inr (Or.inr ⟨w₀, hw₀, hpc ▸ hp⟩))
  | watcher k input =>
    cases hstep with
    | @watcher _ _ w m pc op hw hwatcher =>
      rcases hp with hp | hp | ⟨w', hw', hp⟩
      · exact Or.inl (Or.inl hp)
      · exact Or.inl (Or.inr (Or.inl hp))
      · rcases List.mem_or_eq_of_mem_set hw' with hw' | rfl
        · exact Or.inl (Or.inr (Or.inr ⟨w', hw', hp⟩))
        · rcases hwatcher.held hp with hp | rfl
          · exact Or.inl (Or.inr (Or.inr ⟨w, List.mem_of_getElem? hw, hp⟩))
          · exact Or.inr (Or.inl rfl)
  | notify q =>
    cases hstep with
    | @notify _ t ht =>
      rcases hp with hp | hp
      · unfold TrackerPc.notify at ht
        split at ht
        · cases ht
          simp only at hp
          split at hp
          · cases hp
          · next hne =>
            cases List.mem_singleton.1 hp
            exact Or.inr (Or.inr ⟨rfl, hne⟩)
        · cases ht
      · exact Or.inl (Or.inr hp)
  | track =>
    cases hstep
    rcases hp with hp | hp
    · cases hp
    · exact Or.inl (Or.inr hp)
  | _ =>
    cases hstep
    exact Or.inl hp

/-! ### The pool and the chain -/

/-- What the node and the websocket say is true: an answer has the current challenge, a notification one of all. -/
def Genuine (chain : List Challenge) (a : Action) : Prop :=
  (∀ p ∈ a.answer?, chain.getLast? = some p.challenge) ∧ ∀ p ∈ a.notified?, p.challenge ∈ chain

instance (chain : List Challenge) (a : Action) : Decidable (Genuine chain a) :=
  inferInstanceAs (Decidable ((∀ p ∈ a.answer?, chain.getLast? = some p.challenge) ∧
    ∀ p ∈ a.notified?, p.challenge ∈ chain))

/-- The account gets a challenge it never had, or the pool takes a step. -/
inductive ChainAction
  | advance (c : Challenge)
  | pool (a : Action)

/-- The pool beside the challenges of its account, the current one last. -/
def chainStep (su : MiningSetup) (x : Mining × List Challenge) : ChainAction → Option (Mining × List Challenge)
  | .advance c => if c ∈ x.2 then none else some (x.1, x.2 ++ [c])
  | .pool a => if Genuine x.2 a then (step su x.1 a).map fun s => (s, x.2) else none

/-- `c` is not newer than `c'`. -/
def NotNewer (chain : List Challenge) (c c' : Challenge) : Prop := chain.idxOf c ≤ chain.idxOf c'

instance (chain : List Challenge) (c c' : Challenge) : Decidable (NotNewer chain c c') :=
  inferInstanceAs (Decidable (_ ≤ _))

/-- A notification older than the pool's proof has the last challenge, and a proof is written only while no task holds
an older one. -/
def InOrder (x : Mining × List Challenge) : ChainAction → Prop
  | .advance _ => True
  | .pool a =>
    (∀ p ∈ a.notified?, x.1.mem.lastChallenge = p.challenge ∨ NotNewer x.2 x.1.mem.proof.challenge p.challenge) ∧
      ∀ p ∈ x.1.nextProof? a, ∀ q ∈ x.1.held, NotNewer x.2 p.challenge q.challenge

instance (x : Mining × List Challenge) : (a : ChainAction) → Decidable (InOrder x a)
  | .advance _ => isTrue trivial
  | .pool a => inferInstanceAs (Decidable ((∀ p ∈ a.notified?,
      x.1.mem.lastChallenge = p.challenge ∨ NotNewer x.2 x.1.mem.proof.challenge p.challenge) ∧
        ∀ p ∈ x.1.nextProof? a, ∀ q ∈ x.1.held, NotNewer x.2 p.challenge q.challenge))

/-- The proofs that are held are not older than the pool's. -/
structure Ahead (x : Mining × List Challenge) : Prop where
  nodup : x.2.Nodup
  proof : x.1.mem.proof.challenge ∈ x.2
  held : ∀ q ∈ x.1.held, q.challenge ∈ x.2 ∧ NotNewer x.2 x.1.mem.proof.challenge q.challenge

/-- The pool has moved forward. -/
def Forward (x y : Mining × List Challenge) : Prop :=
  x.2 <+: y.2 ∧ (x.1.mem.proof.challenge ∈ x.2 → y.1.mem.proof.challenge ∈ y.2 ∧
    NotNewer y.2 x.1.mem.proof.challenge y.1.mem.proof.challenge)

variable {x y z : Mining × List Challenge}

theorem NotNewer.append {chain : List Challenge} {c c' : Challenge} (h : NotNewer chain c c') (hc : c ∈ chain)
    (hc' : c' ∈ chain) (rest : List Challenge) : NotNewer (chain ++ rest) c c' := by
  unfold NotNewer
  rw [List.idxOf_append_of_mem hc, List.idxOf_append_of_mem hc']
  exact h

theorem Forward.refl (x : Mining × List Challenge) : Forward x x :=
  ⟨List.prefix_refl _, fun h => ⟨h, Nat.le_refl _⟩⟩

theorem Forward.trans (hxy : Forward x y) (hyz : Forward y z) : Forward x z := by
  refine ⟨hxy.1.trans hyz.1, fun hx => ?_⟩
  obtain ⟨hy, hle⟩ := hxy.2 hx
  obtain ⟨hz, hle'⟩ := hyz.2 hy
  obtain ⟨rest, hrest⟩ := hyz.1
  have hxle : NotNewer z.2 x.1.mem.proof.challenge y.1.mem.proof.challenge := by
    rw [← hrest]
    exact hle.append (hxy.1.subset hx) hy rest
  exact ⟨hz, Nat.le_trans hxle hle'⟩

theorem Ahead.step {a : ChainAction} (hx : Ahead x) (hC : InOrder x a) (h : chainStep su x a = some y) :
    Ahead y ∧ Forward x y := by
  cases a with
  | advance c =>
    simp only [chainStep] at h
    split at h
    · cases h
    · next hc =>
      cases h
      have hnodup : (x.2 ++ [c]).Nodup := by
        rw [List.nodup_append]
        refine ⟨hx.nodup, List.nodup_singleton c, fun d hd e he => ?_⟩
        rw [List.mem_singleton.1 he]
        intro hdc
        exact hc (hdc ▸ hd)
      refine ⟨⟨hnodup, List.mem_append_left _ hx.proof, fun q hq => ?_⟩, List.prefix_append _ _, fun hmem =>
        ⟨List.mem_append_left _ hmem, Nat.le_refl _⟩⟩
      obtain ⟨hmem, hle⟩ := hx.held q hq
      exact ⟨List.mem_append_left _ hmem, hle.append hx.proof hmem [c]⟩
  | pool a =>
    simp only [chainStep] at h
    split at h
    · next hgenuine =>
      obtain ⟨s', hs', rfl⟩ := Option.map_eq_some_iff.1 h
      have hproof : s'.mem.proof.challenge ∈ x.2 ∧ NotNewer x.2 x.1.mem.proof.challenge s'.mem.proof.challenge := by
        rcases (step_sound hs').proof with he | he
        · rw [he]
          exact ⟨hx.proof, Nat.le_refl _⟩
        · exact hx.held _ (mem_held_of_nextProof? he)
      refine ⟨⟨hx.nodup, hproof.1, fun q hq => ?_⟩, List.prefix_refl _, fun _ => hproof⟩
      rcases held_of_step hs' hq with hq | hq | ⟨hq, hlast⟩
      · obtain ⟨hmem, hle⟩ := hx.held q hq
        rcases (step_sound hs').proof with he | he
        · rw [he]
          exact ⟨hmem, hle⟩
        · exact ⟨hmem, hC.2 _ he q hq⟩
      · have hcurrent := hgenuine.1 q hq
        exact ⟨List.mem_of_getLast? hcurrent, idxOf_le_of_getLast? hx.nodup hproof.1 hcurrent⟩
      · have hsame : s'.mem.proof = x.1.mem.proof := by
          rcases (step_sound hs').proof with he | he
          · exact he
          · rw [nextProof?_of_notified? hq] at he
            cases he
        rw [hsame]
        exact ⟨hgenuine.2 q hq, (hC.1 q hq).resolve_left hlast⟩
    · cases h

/-- In every run in which a late notification has the last challenge and no proof is written while a task holds an older
one, the pool's proof does not come back to a challenge that it has left. -/
theorem proof_never_back (su : MiningSetup) (proof : Proof) (db : Database) (chain : List Challenge)
    (hchain : (chain ++ [proof.challenge]).Nodup) {as₁ as₂ as₃ : List ChainAction} {x₁ x₂ x₃ : Mining × List Challenge}
    (hC : Along (chainStep su) InOrder (start proof db, chain ++ [proof.challenge]) (as₁ ++ as₂ ++ as₃))
    (h₁ : run (chainStep su) (start proof db, chain ++ [proof.challenge]) as₁ = some x₁)
    (h₂ : run (chainStep su) x₁ as₂ = some x₂) (h₃ : run (chainStep su) x₂ as₃ = some x₃)
    (hleft : x₂.1.mem.proof.challenge ≠ x₁.1.mem.proof.challenge) :
    x₃.1.mem.proof.challenge ≠ x₁.1.mem.proof.challenge := by
  have hrun : ∀ {x y : Mining × List Challenge} {as : List ChainAction}, Ahead x → Along (chainStep su) InOrder x as →
      run (chainStep su) x as = some y → Ahead y ∧ Forward x y := fun hx hC h =>
    run_related Forward.refl Forward.trans (fun hx hC h => hx.step hC h) hx hC h
  have hstart : Ahead (start proof db, chain ++ [proof.challenge]) :=
    ⟨hchain, List.mem_append_right _ (List.mem_singleton_self _), by rintro q ⟨⟩⟩
  rw [List.append_assoc] at hC
  have hC₂ := hC.right h₁
  obtain ⟨hx₁, -⟩ := hrun hstart hC.left h₁
  obtain ⟨hx₂, h₁₂⟩ := hrun hx₁ hC₂.left h₂
  obtain ⟨hx₃, h₂₃⟩ := hrun hx₂ (hC₂.right h₂) h₃
  intro hback
  obtain ⟨rest, hrest⟩ := h₂₃.1
  have hmem₁ : x₁.1.mem.proof.challenge ∈ x₂.2 := h₁₂.1.subset hx₁.proof
  have hle : NotNewer x₃.2 x₁.1.mem.proof.challenge x₂.1.mem.proof.challenge := by
    rw [← hrest]
    exact (h₁₂.2 hx₁.proof).2.append hmem₁ hx₂.proof rest
  have hge : NotNewer x₃.2 x₂.1.mem.proof.challenge x₁.1.mem.proof.challenge := by
    rw [← hback]
    exact (h₂₃.2 hx₂.proof).2
  have heq := Nat.le_antisymm hle hge
  exact hleft ((List.idxOf_inj (h₂₃.1.subset hmem₁)).1 heq).symm

/-- The account gets its second challenge, and the watcher has the proof from the RPC node. -/
def watcherHasNew : List ChainAction :=
  [.advance (filled 2), .pool (.watcher 0 .go), .pool (.watcher 0 .go), .pool (.watcher 0 (.getProof (some exampleNew)))]

/-- The watcher writes the proof and the last challenge. -/
def watcherWrites : List ChainAction := List.replicate 2 (.pool (.watcher 0 (.op .executed)))

def chainStart : Mining × List Challenge := (exampleStart, [filled 1])

/-- The old proof comes once more when the watcher has written the last challenge. -/
theorem proof_never_back_example :
    ∃ x₁ x₂ x₃, run (chainStep exampleMiningSetup) chainStart (sentRound.map .pool) = some x₁ ∧
      run (chainStep exampleMiningSetup) x₁ (watcherHasNew ++ watcherWrites) = some x₂ ∧
      run (chainStep exampleMiningSetup) x₂ [.pool (.notify exampleOld)] = some x₃ ∧
      x₁.1.mem.proof = exampleOld ∧ x₃.1.mem.proof.challenge ≠ x₁.1.mem.proof.challenge := by
  obtain ⟨x₁, h₁, hold, x₂, h₂, hnew, x₃, h₃⟩ : ∃ x₁,
      run (chainStep exampleMiningSetup) chainStart (sentRound.map .pool) = some x₁ ∧ x₁.1.mem.proof = exampleOld ∧
        ∃ x₂ ∈ run (chainStep exampleMiningSetup) x₁ (watcherHasNew ++ watcherWrites), x₂.1.mem.proof = exampleNew ∧
          ∃ x₃ ∈ run (chainStep exampleMiningSetup) x₂ [.pool (.notify exampleOld)], True :=
    exists_of_run (by decide +kernel)
  have hleft : x₂.1.mem.proof.challenge ≠ x₁.1.mem.proof.challenge := by
    rw [hold, hnew]
    decide
  have hC : Along (chainStep exampleMiningSetup) InOrder chainStart
      (sentRound.map .pool ++ (watcherHasNew ++ watcherWrites) ++ [.pool (.notify exampleOld)]) := by decide +kernel
  exact ⟨x₁, x₂, x₃, h₁, h₂, h₃.1, hold, proof_never_back exampleMiningSetup exampleOld
    (Database.single (filled 7) 0) [] (List.nodup_singleton _) hC h₁ h₂ h₃.1 hleft⟩

/-- The proof is the old one after the first part of the run, the new one after the second, and the old one after the
third. -/
def GoesBack (as bs cs : List ChainAction) : Prop :=
  ∃ x₁, run (chainStep exampleMiningSetup) chainStart as = some x₁ ∧ x₁.1.mem.proof = exampleOld ∧
    ∃ x₂ ∈ run (chainStep exampleMiningSetup) x₁ bs, x₂.1.mem.proof = exampleNew ∧
      ∃ x₃ ∈ run (chainStep exampleMiningSetup) x₂ cs, x₃.1.mem.proof = exampleOld

/-- The new proof comes over the websocket, and then the old one: it is not the last challenge, since no branch has set
that.  Or the old proof comes just before the watcher sets the last challenge, and is written just after. -/
theorem proof_goes_back :
    GoesBack [] [.advance (filled 2), .pool (.notify exampleNew), .pool .track]
        [.pool (.notify exampleOld), .pool .track] ∧
      GoesBack (sentRound.map .pool) (watcherHasNew ++ [.pool (.notify exampleOld)] ++ watcherWrites) [.pool .track] := by
  constructor <;> exact exists_of_run (by decide +kernel)

end Mining

end BitzPool
