import BitzPool.ProofOrder

/-!
# The order of a reset

A reset of the epoch sets the nonce counter to 0, empties the ranges, and empties the submissions, one right after
another, in each of the five lists of operations.  `Ordered` says so of the operations that a task has ahead; a system in
which some task is in the midst of a reset is `resetting`, and it stays so until the submissions are emptied
(`Step.resetting_kept`).
-/

namespace BitzPool

open Transition

/-! ### Resets in order -/

/-- The task has reset the counter, and has yet to empty the ranges or the submissions. -/
def midReset : List EpochOp → Bool
  | .resetRanges :: _ | .resetEpoch _ :: _ => true
  | _ => false

/-- The task has emptied the ranges, and has yet to empty the submissions. -/
def emptying : List EpochOp → Bool
  | .resetEpoch _ :: _ => true
  | _ => false

/-- The three steps of a reset come one after another. -/
def Ordered : List EpochOp → Prop
  | [] => True
  | op :: ops => (op = .resetNonce ↔ ops.head? = some .resetRanges) ∧ (op = .resetRanges ↔ emptying ops = true) ∧
      Ordered ops

/-- The operations of a branch that is entered. -/
def FreshOps (ops : List EpochOp) : Prop := Ordered ops ∧ midReset ops = false

variable {cfg : RowId} {o : CallOutcome} {m : EpochMemory} {op : EpochOp} {ops : List EpochOp}

theorem freshOps_discard : FreshOps discardOps := by
  simp [FreshOps, discardOps, Ordered, midReset, emptying]

theorem freshOps_watcherRpc (old p : Proof) : FreshOps (watcherRpcReset old p) := by
  simp [FreshOps, watcherRpcReset, Ordered, midReset, emptying]

theorem freshOps_watcherWs (old latest : Proof) : FreshOps (watcherWsReset old latest) := by
  simp [FreshOps, watcherWsReset, Ordered, midReset, emptying]

theorem freshOps_mainRpc (latest p : Proof) : FreshOps (mainRpcReset latest p) := by
  simp [FreshOps, mainRpcReset, Ordered, midReset, emptying]

theorem freshOps_mainWs (latest : Proof) : FreshOps (mainWsReset latest) := by
  simp [FreshOps, mainWsReset, Ordered, midReset, emptying]

theorem freshOps_nil : FreshOps [] := ⟨trivial, rfl⟩

theorem midReset_iff : midReset ops = true ↔ ops.head? = some .resetRanges ∨ emptying ops = true := by
  cases ops with
  | nil => simp [midReset, emptying]
  | cons op ops => cases op <;> simp [midReset, emptying]

/-- After an operation comes the next one of the list, unless a challenge has to be looked up or added again. -/
theorem exec_follows (cfg : RowId) (o : CallOutcome) (m : EpochMemory) (op : EpochOp) (ops : List EpochOp) :
    (op.exec cfg o m).2 ++ ops = ops ∨ ∃ c, (op = .addChallenge c ∨ op = .verifyChallenge c) ∧
      ((op.exec cfg o m).2 ++ ops = .verifyChallenge c :: ops ∨ (op.exec cfg o m).2 ++ ops = .addChallenge c :: ops) := by
  cases op with
  | addChallenge c =>
    simp only [EpochOp.exec]
    split
    · exact Or.inl rfl
    · exact Or.inr ⟨c, Or.inl rfl, Or.inl rfl⟩
  | verifyChallenge c =>
    simp only [EpochOp.exec]
    split
    · exact Or.inl rfl
    · exact Or.inr ⟨c, Or.inr rfl, Or.inr rfl⟩
  | _ => exact Or.inl rfl

theorem Ordered.exec (h : Ordered (op :: ops)) : Ordered ((op.exec cfg o m).2 ++ ops) := by
  rcases exec_follows cfg o m op ops with he | ⟨c, rfl | rfl, he | he⟩ <;> rw [he]
  · exact h.2.2
  all_goals
    refine ⟨?_, ?_, h.2.2⟩
    · simpa using h.1
    · simpa using h.2.1

/-- A reset goes on after the counter, and after the ranges. -/
theorem Ordered.midReset_exec (h : Ordered (op :: ops)) :
    midReset ((op.exec cfg o m).2 ++ ops) = true ↔ op = .resetNonce ∨ op = .resetRanges := by
  rcases exec_follows cfg o m op ops with he | ⟨c, rfl | rfl, he | he⟩ <;> rw [he]
  · rw [midReset_iff, h.1, h.2.1]
  all_goals simp [midReset]

theorem Ordered.emptying_exec (h : Ordered (op :: ops)) :
    emptying ((op.exec cfg o m).2 ++ ops) = true ↔ op = .resetRanges := by
  rcases exec_follows cfg o m op ops with he | ⟨c, rfl | rfl, he | he⟩ <;> rw [he]
  · exact h.2.1.symm
  all_goals simp [emptying]

theorem MainStep.opsAhead {dx : Drillx} {cfg : RowId} {rounds : ℕ} {m m' : MainMemory} {i : MainInput} {pc pc' : MainPc}
    {ev : MainEvent} (h : MainStep dx cfg rounds m i pc m' pc' ev) :
    pc.ops = [] ∧ FreshOps pc'.ops ∨ ∃ o op ops, i = .op o ∧ pc.ops = op :: ops ∧
      pc'.ops = (op.exec cfg o m.mem).2 ++ ops := by
  cases h with
  | wait hw hw' =>
    refine Or.inl ⟨?_, ?_⟩
    · cases pc <;> first | rfl | cases hw
    · have hops : pc'.ops = [] := by cases pc' <;> first | rfl | cases hw'
      rw [hops]
      exact freshOps_nil
  | prepare hp hp' =>
    refine Or.inl ⟨MainPc.ops_of_preparing? hp, ?_⟩
    rw [MainPc.ops_of_preparing? hp']
    exact freshOps_nil
  | check hm hm' =>
    refine Or.inl ⟨MainPc.ops_of_mined? hm, ?_⟩
    rw [MainPc.ops_of_mined? hm']
    exact freshOps_nil
  | exhausted | stale | invalid | abandon => exact Or.inl ⟨rfl, freshOps_discard⟩
  | enterRpc => exact Or.inl ⟨rfl, freshOps_mainRpc _ _⟩
  | enterWs => exact Or.inl ⟨rfl, freshOps_mainWs _⟩
  | enterOp | discardOp => exact Or.inr ⟨_, _, _, rfl, rfl, rfl⟩
  | _ => exact Or.inl ⟨rfl, freshOps_nil⟩

theorem WatcherStep.opsAhead {cfg : RowId} {m m' : EpochMemory} {w : Watcher} {i : WatcherInput} {pc : WatcherPc}
    {op : Option EpochOp} (h : WatcherStep cfg m w i m' pc op) :
    w.pc.ops = [] ∧ FreshOps pc.ops ∨ ∃ o op ops, i = .op o ∧ w.pc.ops = op :: ops ∧
      pc.ops = (op.exec cfg o m).2 ++ ops := by
  cases h with
  | move hpc hpc' =>
    rw [hpc']
    exact Or.inl ⟨hpc, freshOps_nil⟩
  | enterWs hpc =>
    rw [hpc]
    exact Or.inl ⟨rfl, freshOps_watcherWs _ _⟩
  | enterRpc hpc =>
    rw [hpc]
    exact Or.inl ⟨rfl, freshOps_watcherRpc _ _⟩
  | op hpc =>
    rw [hpc]
    exact Or.inr ⟨_, _, _, rfl, rfl, rfl⟩

namespace Mining

variable {su : MiningSetup} {s s' : Mining} {a : Action}

/-- The operations ahead of each task. -/
def opLists (s : Mining) : List (List EpochOp) := s.main.ops :: s.watchers.map fun w => w.pc.ops

/-- Some task is in the midst of a reset. -/
def resetting (s : Mining) : Bool := s.opLists.any midReset

theorem mem_opLists {ops : List EpochOp} :
    ops ∈ s.opLists ↔ ops = s.main.ops ∨ ∃ w ∈ s.watchers, w.pc.ops = ops := by
  simp [opLists]

/-- A step of the main loop moves no watcher. -/
theorem event_keeps {m : EpochMemory} {ev : MainEvent} {w : Watcher} (hw : w ∈ s.watchers) :
    ∃ w₁ ∈ (s.event m ev).watchers, w₁.pc = w.pc := by
  cases ev with
  | watch w₀ => exact ⟨w, List.mem_append_left _ hw, rfl⟩
  | stop txId paid =>
    refine ⟨stopWatcher txId w, List.mem_map_of_mem hw, ?_⟩
    unfold stopWatcher
    split <;> rfl
  | _ => exact ⟨w, hw, rfl⟩

/-- Where the operations ahead of a task come from. -/
theorem Step.opLists (h : Step su s a s') {ops' : List EpochOp} (hops : ops' ∈ s'.opLists) :
    ops' ∈ s.opLists ∨ FreshOps ops' ∨ ∃ o op ops, op :: ops ∈ s.opLists ∧ s.nextOp? a = some op ∧
      ops' = (op.exec su.config.poolId o s.mem).2 ++ ops := by
  rw [mem_opLists] at hops
  cases h with
  | @main input m pc ev h =>
    rcases hops with rfl | ⟨w, hw, rfl⟩
    · rw [event_main]
      rcases h.opsAhead with ⟨-, hfresh⟩ | ⟨o, op, ops, rfl, hpc, hpc'⟩
      · exact Or.inr (Or.inl hfresh)
      · refine Or.inr (Or.inr ⟨o, op, ops, mem_opLists.2 (Or.inl hpc.symm), ?_, hpc'⟩)
        simp [nextOp?, hpc]
    · rcases watcher_of_event h hw with htop | ⟨w₀, hw₀, hpc⟩
      · rw [htop]
        exact Or.inr (Or.inl freshOps_nil)
      · rw [← hpc]
        exact Or.inl (mem_opLists.2 (Or.inr ⟨w₀, hw₀, rfl⟩))
  | @watcher k input w m pc op hw h =>
    rcases hops with rfl | ⟨w', hw', rfl⟩
    · exact Or.inl (mem_opLists.2 (Or.inl rfl))
    · rcases List.mem_or_eq_of_mem_set hw' with hw' | rfl
      · exact Or.inl (mem_opLists.2 (Or.inr ⟨w', hw', rfl⟩))
      · rcases h.opsAhead with ⟨-, hfresh⟩ | ⟨o, op', ops, rfl, hpc, hpc'⟩
        · exact Or.inr (Or.inl hfresh)
        · refine Or.inr (Or.inr ⟨o, op', ops, mem_opLists.2 (Or.inr ⟨w, List.mem_of_getElem? hw, hpc⟩), ?_, hpc'⟩)
          simp [nextOp?, hw, hpc]
  | _ => exact Or.inl (mem_opLists.2 hops)

/-- Operations that are ahead stay there, but for one that is executed. -/
theorem Step.opLists_kept (h : Step su s a s') {ops : List EpochOp} (hops : op :: ops ∈ s.opLists) :
    op :: ops ∈ s'.opLists ∨ s.nextOp? a = some op := by
  rw [mem_opLists] at hops
  cases h with
  | @main input m pc ev h =>
    rcases hops with hmain | ⟨w, hw, hpc⟩
    · rcases h.opsAhead with ⟨hnil, -⟩ | ⟨o, op', ops', rfl, hpc, -⟩
      · rw [hnil] at hmain
        cases hmain
      · rw [hpc] at hmain
        cases hmain
        exact Or.inr (by simp [nextOp?, hpc])
    · obtain ⟨w₁, hw₁, hpc₁⟩ : ∃ w₁ ∈ (event { s with mem := m.mem, chain := m.chain, main := pc } s.mem ev).watchers,
          w₁.pc = w.pc := event_keeps hw
      exact Or.inl (mem_opLists.2 (Or.inr ⟨w₁, hw₁, hpc₁ ▸ hpc⟩))
  | @watcher k input w m pc op' hw h =>
    rcases hops with hmain | ⟨w', hw', hpc⟩
    · exact Or.inl (mem_opLists.2 (Or.inl hmain))
    · obtain ⟨j, hj⟩ := List.mem_iff_getElem?.1 hw'
      by_cases hjk : j = k
      · subst hjk
        cases hw.symm.trans hj
        rcases h.opsAhead with ⟨hnil, -⟩ | ⟨o, op₁, ops₁, rfl, hpc₁, -⟩
        · rw [hpc] at hnil
          cases hnil
        · rw [hpc₁] at hpc
          cases hpc
          exact Or.inr (by simp [nextOp?, hw, hpc₁])
      · have hset : (s.watchers.set k { w with pc := pc })[j]? = some w' := by
          rw [List.getElem?_set_ne (Ne.symm hjk)]
          exact hj
        exact Or.inl (mem_opLists.2 (Or.inr ⟨w', List.mem_of_getElem? hset, hpc⟩))
  | _ => exact Or.inl (mem_opLists.2 hops)

/-- The task that executes an operation had it ahead, and has ahead what follows. -/
theorem Step.opLists_exec (h : Step su s a s') (hop : s.nextOp? a = some op) :
    ∃ o ops, op :: ops ∈ s.opLists ∧ (op.exec su.config.poolId o s.mem).2 ++ ops ∈ s'.opLists := by
  cases h with
  | @main input m pc ev h =>
    have hhead : s.main.ops.head? = some op := nextOp?_main hop
    rcases h.opsAhead with ⟨hnil, -⟩ | ⟨o, op', ops, rfl, hpc, hpc'⟩
    · rw [hnil] at hhead
      cases hhead
    · rw [hpc] at hhead
      cases hhead
      refine ⟨o, ops, mem_opLists.2 (Or.inl hpc.symm), mem_opLists.2 (Or.inl ?_)⟩
      rw [event_main, hpc']
  | @watcher k input w m pc op' hw h =>
    have hhead : w.pc.ops.head? = some op := nextOp?_watcher hw hop
    rcases h.opsAhead with ⟨hnil, -⟩ | ⟨o, op₁, ops, rfl, hpc, hpc'⟩
    · rw [hnil] at hhead
      cases hhead
    · rw [hpc] at hhead
      cases hhead
      have hk : k < s.watchers.length := (List.getElem?_eq_some_iff.1 hw).1
      have hset : (s.watchers.set k { w with pc := pc })[k]? = some { w with pc := pc } := List.getElem?_set_self hk
      exact ⟨o, ops, mem_opLists.2 (Or.inr ⟨w, List.mem_of_getElem? hw, hpc⟩),
        mem_opLists.2 (Or.inr ⟨_, List.mem_of_getElem? hset, hpc'⟩)⟩
  | _ => cases hop

theorem resetting_of_emptying (h : s.opLists.any emptying = true) : s.resetting = true := by
  obtain ⟨ops, hops, hempty⟩ := List.any_eq_true.1 h
  exact List.any_eq_true.2 ⟨ops, hops, midReset_iff.2 (Or.inr hempty)⟩

/-- The operations ahead of every task are in order. -/
def InSequence (s : Mining) : Prop := ∀ ops ∈ s.opLists, Ordered ops

/-- The operations ahead do not depend on the memory. -/
theorem InSequence.mem (hs : s.InSequence) (m : EpochMemory) : InSequence { s with mem := m } := hs

theorem InSequence.step (hs : s.InSequence) (h : Step su s a s') : s'.InSequence := by
  intro ops hops
  rcases h.opLists hops with hmem | hfresh | ⟨o, op, ops, hmem, -, rfl⟩
  · exact hs ops hmem
  · exact hfresh.1
  · exact (hs _ hmem).exec

/-- A system that resets has done so before, or the counter has just been reset. -/
theorem Step.resetting (h : Step su s a s') (hs : s.InSequence) (hreset : s'.resetting = true) :
    s.resetting = true ∨ s.nextOp? a = some .resetNonce := by
  obtain ⟨ops', hops', hmid⟩ := List.any_eq_true.1 hreset
  rcases h.opLists hops' with hops' | hfresh | ⟨o, op, ops, hops, hop, rfl⟩
  · exact Or.inl (List.any_eq_true.2 ⟨ops', hops', hmid⟩)
  · rw [hfresh.2] at hmid
    cases hmid
  · rcases (hs _ hops).midReset_exec.1 hmid with rfl | rfl
    · exact Or.inr hop
    · exact Or.inl (List.any_eq_true.2 ⟨_, hops, rfl⟩)

theorem Step.resetting_of_exec (h : Step su s a s') (hs : s.InSequence)
    (hop : s.nextOp? a = some .resetNonce ∨ s.nextOp? a = some .resetRanges) : s'.resetting = true := by
  rcases hop with hop | hop <;> obtain ⟨o, ops, hops, hops'⟩ := h.opLists_exec hop
  · exact List.any_eq_true.2 ⟨_, hops', (hs _ hops).midReset_exec.2 (Or.inl rfl)⟩
  · exact List.any_eq_true.2 ⟨_, hops', (hs _ hops).midReset_exec.2 (Or.inr rfl)⟩

/-- A system resets until the submissions are emptied. -/
theorem Step.resetting_kept (h : Step su s a s') (hs : s.InSequence) (hreset : s.resetting = true) :
    s'.resetting = true ∨ ∃ c, s.nextOp? a = some (.resetEpoch c) := by
  obtain ⟨ops, hops, hmid⟩ := List.any_eq_true.1 hreset
  cases ops with
  | nil => cases hmid
  | cons op ops =>
    rcases h.opLists_kept hops with hkept | hop
    · exact Or.inl (List.any_eq_true.2 ⟨_, hkept, hmid⟩)
    · cases op with
      | resetRanges => exact Or.inl (h.resetting_of_exec hs (Or.inr hop))
      | resetEpoch c => exact Or.inr ⟨c, hop⟩
      | _ => cases hmid

/-- A task that is about to empty the submissions was so before, or has just emptied the ranges. -/
theorem Step.emptying (h : Step su s a s') (hs : s.InSequence) (hempty : s'.opLists.any BitzPool.emptying = true) :
    s.opLists.any BitzPool.emptying = true ∨ s.nextOp? a = some .resetRanges := by
  obtain ⟨ops', hops', hmid⟩ := List.any_eq_true.1 hempty
  rcases h.opLists hops' with hops' | hfresh | ⟨o, op, ops, hops, hop, rfl⟩
  · exact Or.inl (List.any_eq_true.2 ⟨ops', hops', hmid⟩)
  · have hmid' := midReset_iff.2 (Or.inr hmid)
    rw [hfresh.2] at hmid'
    cases hmid'
  · rw [(hs _ hops).emptying_exec] at hmid
    exact Or.inr (hmid ▸ hop)

/-! ### The counter and the ranges -/

private theorem Step.untouched (h : Step su s a s') (ha : ∀ nonce ranges, a ≠ .nonceRanges nonce ranges)
    (hop : s.nextOp? a = none) :
    s'.mem.nonce = s.mem.nonce ∧ s'.mem.clientNonceRanges = s.mem.clientNonceRanges := by
  cases h with
  | @main input m pc ev h =>
    rw [event_mem]
    generalize hpc : s.main = pc₀ at h
    cases h with
    | enterOp | discardOp => simp [nextOp?, hpc, MainPc.ops] at hop
    | _ => exact ⟨rfl, rfl⟩
  | watcher hw h =>
    cases h with
    | op hpc => simp [nextOp?, hw, hpc, WatcherPc.ops] at hop
    | _ => exact ⟨rfl, rfl⟩
  | handler _ h => cases h <;> exact ⟨rfl, rfl⟩
  | nonceRanges => exact absurd rfl (ha _ _)
  | _ => exact ⟨rfl, rfl⟩

theorem Step.counter (h : Step su s a s') (ha : ∀ nonce ranges, a ≠ .nonceRanges nonce ranges) :
    s.nextOp? a = some .resetNonce ∧ s'.mem.nonce = 0 ∨
      s.nextOp? a ≠ some .resetNonce ∧ s'.mem.nonce = s.mem.nonce := by
  rcases hop : s.nextOp? a with _ | op
  · exact Or.inr ⟨by simp, (h.untouched ha hop).1⟩
  · obtain ⟨o, hmem, -⟩ := h.exec hop
    rw [hmem]
    cases op with
    | resetNonce => exact Or.inl ⟨rfl, rfl⟩
    | addChallenge | verifyChallenge =>
      refine Or.inr ⟨by simp, ?_⟩
      simp only [EpochOp.exec]
      split <;> rfl
    | _ => exact Or.inr ⟨by simp, rfl⟩

theorem Step.ranges (h : Step su s a s') (ha : ∀ nonce ranges, a ≠ .nonceRanges nonce ranges) :
    s.nextOp? a = some .resetRanges ∧ s'.mem.clientNonceRanges = ∅ ∨
      s.nextOp? a ≠ some .resetRanges ∧ s'.mem.clientNonceRanges = s.mem.clientNonceRanges := by
  rcases hop : s.nextOp? a with _ | op
  · exact Or.inr ⟨by simp, (h.untouched ha hop).2⟩
  · obtain ⟨o, hmem, -⟩ := h.exec hop
    rw [hmem]
    cases op with
    | resetRanges => exact Or.inl ⟨rfl, rfl⟩
    | addChallenge | verifyChallenge =>
      refine Or.inr ⟨by simp, ?_⟩
      simp only [EpochOp.exec]
      split <;> rfl
    | _ => exact Or.inr ⟨by simp, rfl⟩

end Mining

end BitzPool
