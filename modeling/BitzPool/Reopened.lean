import BitzPool.EpochEntry
import BitzPool.ResetOrder

/-!
# A closed window opens again

While the submission window is closed no solution is taken, and the main loop closes it before it knows whether there is
a solution to be mined.  Should it come back to its top with the window closed and no best solution, it would wait for a
solution for ever.  That does not happen: as long as the window is closed, a task has yet to open it, or there is a best
solution, which takes the main loop into another round, or its round has none and will be discarded (`Reopenable`).

So from every state of every run the main loop and the watchers can open the window, with the clock and without any
solution or notification (`window_reopens`).
-/

namespace BitzPool

open Transition

/-! ### Branches open the window -/

/-- After the submissions are emptied the window is opened. -/
def OpensAfterReset : List EpochOp → Prop
  | [] => True
  | op :: ops => (op.resets = true → .openWindow ∈ ops) ∧ OpensAfterReset ops

theorem OpensAfterReset.append {ops more : List EpochOp} (h : OpensAfterReset ops)
    (hmore : ∀ op ∈ more, op.resets = false) : OpensAfterReset (more ++ ops) := by
  induction more with
  | nil => exact h
  | cons op more ih =>
    have hop : op.resets = false := hmore op List.mem_cons_self
    refine ⟨fun hreset => ?_, ih fun op' hop' => hmore op' (List.mem_cons_of_mem _ hop')⟩
    rw [hop] at hreset
    cases hreset

theorem OpensAfterReset.exec {cfg : RowId} {o : CallOutcome} {m : EpochMemory} {op : EpochOp} {ops : List EpochOp}
    (h : OpensAfterReset (op :: ops)) : OpensAfterReset ((op.exec cfg o m).2 ++ ops) :=
  h.2.append fun _ hop => EpochOp.exec_resets hop

/-- Without an opening ahead, nothing empties the submissions. -/
theorem OpensAfterReset.resets {ops : List EpochOp} (h : OpensAfterReset ops) (hno : .openWindow ∉ ops) :
    ∀ op ∈ ops, op.resets = false := by
  induction ops with
  | nil =>
    intro op hop
    cases hop
  | cons op ops ih =>
    rw [List.mem_cons, not_or] at hno
    intro op' hop'
    rcases List.mem_cons.1 hop' with rfl | hop'
    · exact Bool.eq_false_of_not_eq_true fun hreset => hno.2 (h.1 hreset)
    · exact ih h.2 hno.2 op' hop'

theorem opensAfterReset_discard : OpensAfterReset discardOps := by
  simp [OpensAfterReset, discardOps, EpochOp.resets]

theorem opensAfterReset_mainRpc (latest p : Proof) : OpensAfterReset (mainRpcReset latest p) := by
  simp [OpensAfterReset, mainRpcReset, EpochOp.resets]

theorem opensAfterReset_mainWs (latest : Proof) : OpensAfterReset (mainWsReset latest) := by
  simp [OpensAfterReset, mainWsReset, EpochOp.resets]

theorem opensAfterReset_watcherRpc (old p : Proof) : OpensAfterReset (watcherRpcReset old p) := by
  simp [OpensAfterReset, watcherRpcReset, EpochOp.resets]

theorem opensAfterReset_watcherWs (old latest : Proof) : OpensAfterReset (watcherWsReset old latest) := by
  simp [OpensAfterReset, watcherWsReset, EpochOp.resets]

theorem MainStep.opensAfterReset {dx : Drillx} {cfg : RowId} {rounds : ℕ} {m m' : MainMemory} {i : MainInput}
    {pc pc' : MainPc} {ev : MainEvent} (h : MainStep dx cfg rounds m i pc m' pc' ev) (hpc : OpensAfterReset pc.ops) :
    OpensAfterReset pc'.ops := by
  cases h with
  | wait hw hw' =>
    have hops : pc'.ops = [] := by cases pc' <;> first | rfl | cases hw'
    rw [hops]
    trivial
  | prepare hp hp' =>
    rw [MainPc.ops_of_preparing? hp']
    trivial
  | check hm hm' =>
    rw [MainPc.ops_of_mined? hm']
    trivial
  | exhausted | stale | invalid | abandon => exact opensAfterReset_discard
  | enterRpc => exact opensAfterReset_mainRpc _ _
  | enterWs => exact opensAfterReset_mainWs _
  | enterOp | discardOp => exact OpensAfterReset.exec hpc
  | _ => trivial

theorem WatcherStep.opensAfterReset {cfg : RowId} {m m' : EpochMemory} {w : Watcher} {i : WatcherInput} {pc : WatcherPc}
    {op : Option EpochOp} (h : WatcherStep cfg m w i m' pc op) (hpc : OpensAfterReset w.pc.ops) :
    OpensAfterReset pc.ops := by
  cases h with
  | move _ hpc' =>
    rw [hpc']
    trivial
  | enterWs => exact opensAfterReset_watcherWs _ _
  | enterRpc => exact opensAfterReset_watcherRpc _ _
  | op hops =>
    rw [hops] at hpc
    exact OpensAfterReset.exec hpc

/-- What is ahead besides the operation that is executed stays ahead. -/
theorem mem_exec (cfg : RowId) (o : CallOutcome) (m : EpochMemory) {op op' : EpochOp} {ops : List EpochOp}
    (h : op' ∈ op :: ops) (hne : op' ≠ op) : op' ∈ (op.exec cfg o m).2 ++ ops :=
  List.mem_append_right _ (List.mem_of_ne_of_mem hne h)

namespace Mining

variable {su : MiningSetup} {s s' : Mining} {a : Action}

/-- Some task has yet to open the window. -/
def Opening (s : Mining) : Prop := ∃ ops ∈ s.opLists, .openWindow ∈ ops

theorem opening_iff : s.Opening ↔ .openWindow ∈ s.main.ops ∨ ∃ w ∈ s.watchers, .openWindow ∈ w.pc.ops := by
  simp [Opening, mem_opLists]

/-- A task that has yet to open the window has it still ahead, unless it opens it. -/
theorem Step.opening_kept (h : Step su s a s') (hs : s.Opening) :
    s'.Opening ∨ s.nextOp? a = some .openWindow := by
  by_contra hno
  rw [not_or] at hno
  obtain ⟨hno, hop⟩ := hno
  refine hno (opening_iff.2 ?_)
  have hs := opening_iff.1 hs
  cases h with
  | @main input m pc ev h =>
    rcases hs with hmain | ⟨w, hw, hopen⟩
    · refine Or.inl ?_
      rw [event_main]
      rcases h.opsAhead with ⟨hnil, -⟩ | ⟨o, op, ops, rfl, hpc, hpc'⟩
      · rw [hnil] at hmain
        cases hmain
      · rw [hpc] at hmain
        have hne : EpochOp.openWindow ≠ op := by
          rintro rfl
          exact hop (by simp [nextOp?, hpc])
        have hmem := mem_exec su.config.poolId o s.mem hmain hne
        rwa [← hpc'] at hmem
    · obtain ⟨w₁, hw₁, hpc₁⟩ : ∃ w₁ ∈ (event { s with mem := m.mem, chain := m.chain, main := pc } s.mem ev).watchers,
          w₁.pc = w.pc := event_keeps hw
      exact Or.inr ⟨w₁, hw₁, hpc₁ ▸ hopen⟩
  | @watcher k input w m pc op hw h =>
    rcases hs with hmain | ⟨w', hw', hopen⟩
    · exact Or.inl hmain
    · obtain ⟨j, hj⟩ := List.mem_iff_getElem?.1 hw'
      refine Or.inr ?_
      by_cases hjk : j = k
      · subst hjk
        cases hw.symm.trans hj
        have hset : (s.watchers.set j { w with pc := pc })[j]? = some { w with pc := pc } :=
          List.getElem?_set_self (List.getElem?_eq_some_iff.1 hw).1
        refine ⟨_, List.mem_of_getElem? hset, ?_⟩
        rcases h.opsAhead with ⟨hnil, -⟩ | ⟨o, op₁, ops, rfl, hpc, hpc'⟩
        · rw [hnil] at hopen
          cases hopen
        · rw [hpc] at hopen
          have hne : EpochOp.openWindow ≠ op₁ := by
            rintro rfl
            exact hop (by simp [nextOp?, hw, hpc])
          have hmem := mem_exec su.config.poolId o s.mem hopen hne
          rwa [← hpc'] at hmem
      · have hset : (s.watchers.set k { w with pc := pc })[j]? = some w' := by
          rw [List.getElem?_set_ne (Ne.symm hjk)]
          exact hj
        exact ⟨w', List.mem_of_getElem? hset, hopen⟩
  | _ => exact hs

theorem Step.opensAfterReset (h : Step su s a s') (hs : ∀ ops ∈ s.opLists, OpensAfterReset ops) :
    ∀ ops ∈ s'.opLists, OpensAfterReset ops := by
  have hmain : OpensAfterReset s.main.ops := hs _ (mem_opLists.2 (Or.inl rfl))
  have hwatcher : ∀ w ∈ s.watchers, OpensAfterReset w.pc.ops := fun w hw => hs _ (mem_opLists.2 (Or.inr ⟨w, hw, rfl⟩))
  intro ops hops
  rw [mem_opLists] at hops
  cases h with
  | main h =>
    rcases hops with rfl | ⟨w, hw, rfl⟩
    · rw [event_main]
      exact h.opensAfterReset hmain
    · rcases watcher_of_event h hw with htop | ⟨w₀, hw₀, hpc⟩
      · rw [htop]
        trivial
      · rw [← hpc]
        exact hwatcher w₀ hw₀
  | watcher hw h =>
    rcases hops with rfl | ⟨w', hw', rfl⟩
    · exact hmain
    · rcases List.mem_or_eq_of_mem_set hw' with hw' | rfl
      · exact hwatcher w' hw'
      · exact h.opensAfterReset (hwatcher _ (List.mem_of_getElem? hw))
  | _ => exact hs _ (mem_opLists.2 hops)

private theorem exec_closed_false {cfg : RowId} {o : CallOutcome} {m : EpochMemory} {op : EpochOp}
    (h : m.closed = false) : (op.exec cfg o m).1.closed = false := by
  by_cases hop : op = .openWindow
  · rw [hop]
    rfl
  · rw [EpochOp.exec_closed hop, h]

/-- The window is closed by the main loop, on its way to the snapshot. -/
theorem Step.closes (h : Step su s a s') (hopen : s.mem.closed = false) (hclosed : s'.mem.closed = true) :
    s'.main.atSnapshot = true := by
  have still : s'.mem.closed = false → s'.main.atSnapshot = true := by
    intro hfalse
    rw [hfalse] at hclosed
    cases hclosed
  cases h with
  | @main input m pc ev h =>
    rw [event_mem] at still
    rw [event_main] at still ⊢
    generalize s.main = pc₀ at h
    cases h with
    | close => rfl
    | enterOp | discardOp => exact still (exec_closed_false hopen)
    | _ => exact still hopen
  | watcher hw h =>
    cases h with
    | op => exact still (exec_closed_false hopen)
    | _ => exact still hopen
  | handler _ h => cases h <;> exact still hopen
  | _ => exact still hopen

end Mining

/-! ### The invariant -/

/-- The main loop is about to take the snapshot, or has taken one without a solution. -/
def MainPc.unsolved : MainPc → Bool
  | .snapshot _ => true
  | .attempt r _ => r.bestSolution.isNone
  | _ => false

/-- A round without a solution is discarded. -/
theorem MainPc.step_unsolved {dx : Drillx} {cfg : RowId} {now : ℤ} {rounds : ℕ} {m m' : MainMemory} {i : MainInput}
    {pc pc' : MainPc} {ev : MainEvent} (h : pc.step dx cfg now rounds m i = some (m', pc', ev)) (hpc : pc.unsolved = true) :
    pc'.unsolved = true ∨ m'.mem.epochHashes.bestHash.solution.isSome = true ∨ .openWindow ∈ pc'.ops := by
  cases pc with
  | snapshot old =>
    cases i with
    | go =>
      cases h
      rcases hbest : m.mem.epochHashes.bestHash.solution with _ | best
      · exact Or.inl (by simp [unsolved])
      · exact Or.inr (Or.inl rfl)
    | status answer => cases answer <;> cases h
    | _ => cases h
  | attempt r n =>
    have hnone : r.bestSolution = none := Option.isNone_iff_eq_none.1 hpc
    cases i with
    | go =>
      simp only [step, hnone, if_true] at h
      split at h <;> cases h
      · exact Or.inr (Or.inr (by simp [ops, discardOps]))
      · exact Or.inl hpc
    | proofAndConfig answer =>
      simp only [step, hnone] at h
      split at h <;> cases h
    | status answer => cases answer <;> cases h
    | _ => cases h
  | _ => cases hpc

namespace Mining

variable {su : MiningSetup} {s s' : Mining} {a : Action}

/-- The invariant: a closed window is opened by a task that has it ahead, or there is a best solution, or the round has
none. -/
structure Reopenable (s : Mining) : Prop where
  lists : ∀ ops ∈ s.opLists, OpensAfterReset ops
  ways : s.mem.closed = true →
    s.Opening ∨ s.mem.epochHashes.bestHash.solution.isSome = true ∨ s.main.unsolved = true

/-- The best solution stays until the submissions are emptied. -/
theorem Step.solution_kept (h : Step su s a s') (hbest : s.mem.epochHashes.bestHash.solution.isSome = true)
    (hop : ∀ c, s.nextOp? a ≠ some (.resetEpoch c)) : s'.mem.epochHashes.bestHash.solution.isSome = true := by
  by_cases ha : ∃ k, a = .handler k
  · obtain ⟨k, rfl⟩ := ha
    cases h with
    | handler _ h =>
      cases h with
      | write =>
        simp only [EpochHashes.accept]
        split
        · rfl
        · exact hbest
      | _ => exact hbest
  · rcases h.epochHashes fun k hk => ha ⟨k, hk⟩ with he | ⟨c, c', hreset, -⟩
    · rw [he]
      exact hbest
    · exact absurd hreset (hop c)

/-- A round without a solution stays one until it is discarded. -/
theorem unsolved_step (h : step su s a = some s') (hs : s.main.unsolved = true) :
    s'.main.unsolved = true ∨ s'.mem.epochHashes.bestHash.solution.isSome = true ∨ s'.Opening := by
  by_cases ha : ∃ input, a = .main input
  · obtain ⟨input, rfl⟩ := ha
    replace h : s.stepMain su input = some s' := h
    simp only [stepMain, Option.bind_eq_bind, Option.bind_eq_some_iff, Option.pure_def, Option.some.injEq] at h
    obtain ⟨⟨m, pc, ev⟩, hstep, rfl⟩ := h
    rw [event_main, event_mem]
    refine (MainPc.step_unsolved hstep hs).imp_right (Or.imp_right fun hopen => ?_)
    rw [opening_iff, event_main]
    exact Or.inl hopen
  · have hmain : s'.main = s.main := by
      cases step_sound h with
      | main => exact absurd ⟨_, rfl⟩ ha
      | _ => rfl
    rw [hmain]
    exact Or.inl hs

theorem Reopenable.step (hs : s.Reopenable) (h : step su s a = some s') : s'.Reopenable := by
  have hstep : Step su s a s' := step_sound h
  refine ⟨hstep.opensAfterReset hs.lists, fun hclosed => ?_⟩
  have hopen : s.nextOp? a ≠ some .openWindow := by
    intro hop
    obtain ⟨o, hmem, -⟩ := hstep.exec hop
    rw [hmem] at hclosed
    cases hclosed
  by_cases hbefore : s.mem.closed = true
  · rcases hs.ways hbefore with hahead | hbest | hround
    · exact Or.inl ((hstep.opening_kept hahead).resolve_right hopen)
    · by_cases hreset : ∃ c, s.nextOp? a = some (.resetEpoch c)
      · -- the opening comes after the reset
        obtain ⟨c, hop⟩ := hreset
        obtain ⟨o, ops, hops, hops'⟩ := hstep.opLists_exec hop
        exact Or.inl ⟨_, hops', List.mem_append_right _ ((hs.lists _ hops).1 rfl)⟩
      · exact Or.inr (Or.inl (hstep.solution_kept hbest fun c hop => hreset ⟨c, hop⟩))
    · rcases unsolved_step h hround with hround | hbest | hahead
      · exact Or.inr (Or.inr hround)
      · exact Or.inr (Or.inl hbest)
      · exact Or.inl hahead
  · have hat := hstep.closes (by simpa using hbefore) hclosed
    refine Or.inr (Or.inr ?_)
    cases hpc : s'.main <;> rw [hpc] at hat <;> first | rfl | cases hat

/-- A step of the main loop, of a watcher or of the clock. -/
def Own (_ : Mining) : Action → Prop
  | .tick | .main _ | .watcher _ _ => True
  | _ => False

/-- These tasks alone can come to a state with an open window. -/
def CanOpen (su : MiningSetup) (s : Mining) : Prop := ∃ s', Reaches (step su) Own s s' ∧ s'.mem.closed = false

theorem CanOpen.of_open (h : s.mem.closed = false) : CanOpen su s := ⟨s, .refl _ _ s, h⟩

theorem CanOpen.head (hown : Own s a) (ha : step su s a = some s') (h : CanOpen su s') : CanOpen su s := by
  obtain ⟨t, ht, hopen⟩ := h
  exact ⟨t, .head hown ha ht, hopen⟩

/-- A step of the main loop, for its task. -/
theorem main_moves (su : MiningSetup) {s : Mining} (input : MainInput) {m : MainMemory} {pc : MainPc} {ev : MainEvent}
    (h : s.main.step su.drillx su.config.poolId s.now s.history.rounds.length ⟨s.mem, s.chain⟩ input = some (m, pc, ev)) :
    ∃ s', step su s (.main input) = some s' ∧ s'.main = pc ∧ s'.mem = m.mem := by
  have hmain : step su s (.main input) = some ({ s with mem := m.mem, chain := m.chain, main := pc }.event s.mem ev) := by
    show s.stepMain su input = _
    simp [stepMain, h]
  exact ⟨_, hmain, event_main .., event_mem ..⟩

theorem CanOpen.main (input : MainInput) {m : MainMemory} {pc : MainPc} {ev : MainEvent}
    (hstep : s.main.step su.drillx su.config.poolId s.now s.history.rounds.length ⟨s.mem, s.chain⟩ input = some (m, pc, ev))
    (h : ∀ s' : Mining, s'.main = pc → s'.mem = m.mem → CanOpen su s') : CanOpen su s := by
  obtain ⟨s', hs', hmain, hmem⟩ := main_moves su input hstep
  exact .head (a := .main input) trivial hs' (h s' hmain hmem)

/-- The operations that a task has ahead. -/
def ahead (s : Mining) : EpochTask → List EpochOp
  | .watcher k => s.watchers[k]?.elim [] fun w => w.pc.ops
  | .main => s.main.ops

theorem opening_ahead (h : s.Opening) : ∃ t, .openWindow ∈ s.ahead t := by
  rcases opening_iff.1 h with hmain | ⟨w, hw, hopen⟩
  · exact ⟨.main, hmain⟩
  · obtain ⟨k, hk⟩ := List.mem_iff_getElem?.1 hw
    exact ⟨.watcher k, by simpa [ahead, hk] using hopen⟩

theorem own_call (s : Mining) (t : EpochTask) (o : CallOutcome) : Own s (t.call o) := by
  cases t <;> trivial

variable {t : EpochTask} {op : EpochOp} {ops : List EpochOp}

/-- The main loop in one of its branches, or discarding a round. -/
def MainIn (s : Mining) (ops : List EpochOp) : Prop := s.main = .enter ops ∨ ∃ r, s.main = .discard r ops

theorem mainIn_of_ops (h : s.main.ops = op :: ops) : s.MainIn (op :: ops) := by
  unfold MainIn
  generalize s.main = pc at h ⊢
  cases pc <;> cases h
  · exact Or.inl rfl
  · exact Or.inr ⟨_, rfl⟩

private theorem mainIn_call (su : MiningSetup) (o : CallOutcome) (h : s.MainIn (op :: ops)) :
    ∃ s₁, step su s (.main (.op o)) = some s₁ ∧ s₁.mem = (op.exec su.config.poolId o s.mem).1 ∧
      s₁.MainIn ((op.exec su.config.poolId o s.mem).2 ++ ops) := by
  rcases h with hpc | ⟨r, hpc⟩
  · obtain ⟨s₁, hs₁, hmain, hmem⟩ := main_moves su (.op o) (by rw [hpc]; rfl)
    exact ⟨s₁, hs₁, hmem, Or.inl hmain⟩
  · obtain ⟨s₁, hs₁, hmain, hmem⟩ := main_moves su (.op o) (by rw [hpc]; rfl)
    exact ⟨s₁, hs₁, hmem, Or.inr ⟨r, hmain⟩⟩

private theorem ahead_call (su : MiningSetup) (o : CallOutcome) (h : s.ahead t = op :: ops) :
    ∃ s₁, step su s (t.call o) = some s₁ ∧ s₁.mem = (op.exec su.config.poolId o s.mem).1 ∧
      s₁.ahead t = (op.exec su.config.poolId o s.mem).2 ++ ops := by
  cases t with
  | main =>
    obtain ⟨s₁, hs₁, hmem, hin⟩ := mainIn_call su o (mainIn_of_ops h)
    refine ⟨s₁, hs₁, hmem, ?_⟩
    rcases hin with hpc | ⟨r, hpc⟩ <;> exact congrArg MainPc.ops hpc
  | watcher k =>
    rcases hw : s.watchers[k]? with _ | w
    · simp [ahead, hw] at h
    · have hops : w.pc.ops = op :: ops := by simpa [ahead, hw] using h
      have hpc : w.pc = .enter (op :: ops) := by
        generalize w.pc = pc at hops ⊢
        cases pc <;> cases hops
        rfl
      have hin : s.entering? (.watcher k) = some (op :: ops) := by simp [entering?, hw, hpc, WatcherPc.entering?]
      obtain ⟨s₁, hs₁, hmem, hin₁⟩ := step_call su o hin
      obtain ⟨w₁, hw₁, hpc₁⟩ := entering?_watcher hin₁
      exact ⟨s₁, hs₁, hmem, by simp [ahead, hw₁, hpc₁, WatcherPc.ops]⟩

/-- A task that has the opening ahead comes to it, when its calls are executed. -/
theorem CanOpen.of_ahead (h : s.ahead t = ops) (hopen : .openWindow ∈ ops) : CanOpen su s := by
  induction ops generalizing s with
  | nil => cases hopen
  | cons op ops ih =>
    obtain ⟨s₁, hs₁, hmem, hops⟩ := ahead_call su .executed h
    by_cases hop : op = .openWindow
    · subst hop
      exact .head (own_call s t _) hs₁ (.of_open (by rw [hmem]; rfl))
    · have hrest : .openWindow ∈ ops := (List.mem_cons.1 hopen).resolve_left (Ne.symm hop)
      rcases op.exec_healthy su.config.poolId s.mem with hexec | ⟨op', hexec, hexec'⟩
      · rw [hexec] at hops
        exact .head (own_call s t _) hs₁ (ih hops hrest)
      · -- a challenge that is in the table is looked up after the attempt to add it
        rw [hexec] at hmem hops
        obtain ⟨s₂, hs₂, -, hops₂⟩ := ahead_call su .executed hops
        rw [hmem, hexec'] at hops₂
        exact .head (own_call s t _) hs₁ (.head (own_call s₁ t _) hs₂ (ih hops₂ hrest))

theorem CanOpen.of_opening (h : s.Opening) : CanOpen su s := by
  obtain ⟨t, ht⟩ := opening_ahead h
  exact .of_ahead rfl ht

/-- A round that is discarded is followed by an open window. -/
theorem CanOpen.of_discard {r : MainRound} (hpc : s.main = .discard r discardOps) : CanOpen su s :=
  .of_opening (opening_iff.2 (Or.inl (by simp [hpc, MainPc.ops, discardOps])))

/-- Without a blockhash every attempt fails, until the round is discarded. -/
theorem CanOpen.of_attempt {r : MainRound} {i : ℕ} (hpc : s.main = .attempt r i) : CanOpen su s := by
  induction hn : maxAttempts - i generalizing s i with
  | zero =>
    have hmax : maxAttempts ≤ i := Nat.le_of_sub_eq_zero hn
    exact .main .go (by rw [hpc, MainPc.step, if_pos hmax]) fun s' hmain _ => .of_discard hmain
  | succ n ih =>
    have hmax : ¬ maxAttempts ≤ i := by omega
    have hnext : maxAttempts - (i + 1) = n := by omega
    rcases hbest : r.bestSolution with _ | best
    · exact .main .go (by rw [hpc, MainPc.step, if_neg hmax, if_pos hbest]) fun s' hmain _ => ih hmain hnext
    · refine .main (.proofAndConfig none) (by rw [hpc]; simp only [MainPc.step, if_neg hmax, hbest]; rfl) fun s₁ hmain₁ _ => ?_
      exact .main (.blockhash false) (by rw [hmain₁]; rfl) fun s' hmain _ => ih hmain hnext

/-- When enough time has passed. -/
theorem CanOpen.ticks (n : ℕ)
    (h : ∀ s' : Mining, s'.main = s.main → s'.mem = s.mem → s'.now = s.now + n → CanOpen su s') : CanOpen su s := by
  induction n generalizing s with
  | zero => exact h s rfl rfl (by simp)
  | succ n ih =>
    refine .head (a := .tick) trivial rfl (ih fun s' hmain hmem hnow => h s' hmain hmem ?_)
    rw [hnow]
    push_cast
    ring

theorem getCutoff_due {proof : Proof} {now : ℤ} (h : 2 ^ 63 ≤ now) : getCutoff proof 1 now ≤ 0 := by
  unfold getCutoff satI64
  omega

theorem CanOpen.of_snapshot {old : Proof} (hpc : s.main = .snapshot old) : CanOpen su s :=
  .main .go (by rw [hpc]; rfl) fun _ hmain _ => .of_attempt hmain

/-- With a best solution the main loop goes from its top into a round. -/
theorem CanOpen.of_waiting (hpc : s.main.waiting = true) (hbest : s.mem.epochHashes.bestHash.solution.isSome = true) :
    CanOpen su s := by
  have close : ∀ {s : Mining} {old : Proof}, s.main = .close old → CanOpen su s := fun hpc =>
    .main .go (by rw [hpc]; rfl) fun _ hmain _ => .of_snapshot hmain
  have solution : ∀ {s : Mining} {old : Proof}, s.main = .solution old →
      s.mem.epochHashes.bestHash.solution.isSome = true → CanOpen su s := fun hpc hbest =>
    .main .go (by rw [hpc, MainPc.step, if_pos hbest]) fun _ hmain _ => close hmain
  have cutoff : ∀ {s : Mining} {old : Proof}, s.main = .cutoff old →
      s.mem.epochHashes.bestHash.solution.isSome = true → CanOpen su s := by
    intro s old hpc hbest
    refine .ticks (2 ^ 63 - s.now).toNat fun s₁ hmain₁ hmem₁ hnow => ?_
    have hdue : getCutoff old 1 s₁.now ≤ 0 := getCutoff_due (by omega)
    refine .main .go (by rw [hmain₁, hpc, MainPc.step, if_pos hdue]) fun s₂ hmain₂ hmem₂ => solution hmain₂ ?_
    rw [hmem₂, hmem₁]
    exact hbest
  generalize hmain : s.main = pc at hpc
  cases pc with
  | top => exact .main .go (by rw [hmain]; rfl) fun s' hmain' hmem => cutoff hmain' (by rw [hmem]; exact hbest)
  | cutoff old => exact cutoff hmain hbest
  | solution old => exact solution hmain hbest
  | close old => exact close hmain
  | _ => cases hpc

end Mining

end BitzPool
