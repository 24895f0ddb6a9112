import BitzPool.Lib.Run
import BitzPool.MiningSteps

/-!
# Resets of an epoch

The watcher of a transaction and the main loop both enter a new epoch when they see a new proof, and the main loop
also resets the submissions when its attempts failed.  No guard is common to them: each decides on its own that a
reset is due, and a reset that is still ahead of one task can come after another task has reset the submissions and
opened the window, and then empties what was accepted in between.

In the runs in which a task takes a branch with a reset only while the window is closed behind a snapshot, and opens
the window only when no reset is ahead of any task (`ResetsGuarded`), everything that is accepted while the window is
open stays in the submissions until the main loop takes its snapshot (`accepted_kept`).
-/

namespace BitzPool

open Transition

/-! ### Branches with a reset -/

/-- The step takes a branch that will empty the submissions. -/
def MainPc.entersReset (m : EpochMemory) : MainInput → MainPc → Bool
  | .go, .attempt _ i => maxAttempts ≤ i
  | .go, .staleProof _ _ => true
  | .simulate invalidHash, .simulate _ _ _ _ => invalidHash
  | .send ok, .send _ _ _ _ attempts => !ok && maxSendAttempts ≤ attempts + 1
  | .getProof (some p), .getProof r _ => r.old.challenge ≠ p.challenge
  | .go, .compareEpoch _ latest => latest.challenge ≠ m.epochHashes.challenge
  | _, _ => false

def Watcher.entersReset (m : EpochMemory) (w : Watcher) : WatcherInput → Bool
  | .go => w.pc = .readProof ∧ w.old.challenge ≠ m.proof.challenge
  | .getProof (some p) => w.pc = .getProof ∧ w.old.challenge ≠ p.challenge
  | _ => false

theorem MainStep.resetAhead {dx : Drillx} {cfg : RowId} {rounds : ℕ} {m m' : MainMemory} {i : MainInput}
    {pc pc' : MainPc} {ev : MainEvent} (h : MainStep dx cfg rounds m i pc m' pc' ev)
    (hno : pc.resetAhead = false) (henter : pc.entersReset m.mem i = false) : pc'.resetAhead = false := by
  cases h with
  | exhausted hmax => simp [MainPc.entersReset, hmax] at henter
  | stale | invalid => cases henter
  | abandon hmax => simp [MainPc.entersReset, hmax] at henter
  | enterRpc hne | enterWs hne => simp [MainPc.entersReset, hne] at henter
  | enterOp | discardOp => exact EpochOp.any_resets_exec hno
  | wait _ hw => cases pc' <;> first | rfl | cases hw
  | prepare _ hp => cases pc' <;> first | rfl | cases hp
  | check _ hm => cases pc' <;> first | rfl | cases hm
  | _ => rfl

theorem MainStep.pastSnapshot {dx : Drillx} {cfg : RowId} {rounds : ℕ} {m m' : MainMemory} {i : MainInput}
    {pc pc' : MainPc} {ev : MainEvent} (h : MainStep dx cfg rounds m i pc m' pc' ev)
    (hp : pc'.pastSnapshot = true) : pc.pastSnapshot = true ∨ ∃ r, ev = .snapshot r := by
  cases h with
  | snapshot => exact Or.inr ⟨_, rfl⟩
  | wait _ hw => cases pc' <;> simp [MainPc.pastSnapshot, MainPc.waiting] at hp hw
  | prepare hp' _ => cases pc <;> first | exact Or.inl rfl | cases hp'
  | check hm _ => cases pc <;> first | exact Or.inl rfl | cases hm
  | close | upToDate | entered | discarded => cases hp
  | _ => exact Or.inl rfl

namespace Mining

/-- The action takes a branch that will empty the submissions. -/
def entersReset (s : Mining) : Action → Bool
  | .main input => s.main.entersReset s.mem input
  | .watcher k input => s.watchers[k]?.any fun w => w.entersReset s.mem input
  | _ => false

/-- A branch with a reset is taken only while the window is closed and the main loop has its snapshot, and the window
is opened only when no reset is ahead of a task. -/
def ResetsGuarded (s : Mining) (a : Action) : Prop :=
  (s.entersReset a → s.mem.closed ∧ s.main.pastSnapshot) ∧
    (s.nextOp? a = some .openWindow → s.main.resetAhead = false ∧ ∀ w ∈ s.watchers, w.pc.resetAhead = false)

instance (s : Mining) (a : Action) : Decidable (s.ResetsGuarded a) := inferInstanceAs (Decidable (_ ∧ _))

/-! ### What is accepted stays -/

/-- The invariant: once the window was opened, it is not closed behind a snapshot, and no reset is ahead of a task;
what was accepted since is in the submissions. -/
structure Unwiped (s : Mining) : Prop where
  opened : s.history.opened.isSome → s.mem.closed = true → s.main.pastSnapshot = false
  ahead : s.history.opened.isSome → s.main.resetAhead = false ∧ ∀ w ∈ s.watchers, w.pc.resetAhead = false
  empty : s.history.opened = none → s.history.accepted = []
  kept : ∀ e ∈ s.history.accepted, e.uuid ∈ s.mem.epochHashes.submissions

variable {su : MiningSetup} {s s' : Mining} {a : Action}

/-- No reset is ahead of a task in `s'` unless one was in `s`. -/
private def NoNewReset (s s' : Mining) : Prop :=
  s.main.resetAhead = false ∧ (∀ w ∈ s.watchers, w.pc.resetAhead = false) →
    s'.main.resetAhead = false ∧ ∀ w ∈ s'.watchers, w.pc.resetAhead = false

/-- Steps that touch neither the window nor the submissions nor the history. -/
private theorem Unwiped.frame (hs : s.Unwiped) (hclosed : s'.mem.closed = s.mem.closed)
    (hepoch : s'.mem.epochHashes = s.mem.epochHashes) (hhist : s'.history = s.history)
    (hpast : s'.main.pastSnapshot = true → s.main.pastSnapshot = true)
    (hahead : s.history.opened.isSome → NoNewReset s s') : s'.Unwiped where
  opened h hc := by
    have hold := hs.opened (hhist ▸ h) (hclosed ▸ hc)
    by_contra hp
    rw [hpast (by simpa using hp)] at hold
    cases hold
  ahead h := hahead (hhist ▸ h) (hs.ahead (hhist ▸ h))
  empty h := hhist ▸ hs.empty (hhist ▸ h)
  kept e he := hepoch ▸ hs.kept e (hhist ▸ he)

/-- The execution of an operation, by the main loop or a watcher. -/
private theorem Unwiped.op (hs : s.Unwiped) {cfg : RowId} {o : CallOutcome} {op : EpochOp}
    (hop : op = .openWindow → s.main.resetAhead = false ∧ ∀ w ∈ s.watchers, w.pc.resetAhead = false)
    (hres : op.resets = true → s.main.resetAhead = true ∨ ∃ w ∈ s.watchers, w.pc.resetAhead = true)
    (hmem : s'.mem = (op.exec cfg o s.mem).1) (hhist : s'.history = s.history.exec s.mem op)
    (hpast : s'.main.pastSnapshot = true → s.main.pastSnapshot = true) (hahead : NoNewReset s s') : s'.Unwiped := by
  by_cases hopen : op = .openWindow
  · subst hopen
    refine ⟨fun _ hc => ?_, fun _ => hahead (hop rfl), fun h => ?_, fun e he => ?_⟩
    · rw [hmem] at hc
      cases hc
    · rw [hhist] at h
      cases h
    · rw [hmem]
      rw [hhist] at he
      exact hs.kept e he
  · cases hr : op.resets with
    | true =>
      -- a reset is ahead, so the window was not opened, and nothing was accepted
      have hnone : s.history.opened = none := by
        by_contra hsome
        obtain ⟨h1, h2⟩ := hs.ahead (Option.isSome_iff_ne_none.2 hsome)
        rcases hres hr with h | ⟨w, hw, h⟩
        · rw [h1] at h
          cases h
        · rw [h2 w hw] at h
          cases h
      have hopened' : s'.history.opened = none := by
        rw [hhist]
        cases op <;> first | exact hnone | cases hr
      have hacc : s'.history.accepted = [] := by
        rw [hhist, ← hs.empty hnone]
        cases op <;> rfl
      refine ⟨fun h => ?_, fun h => ?_, fun _ => hacc, fun e he => ?_⟩
      · rw [hopened'] at h
        cases h
      · rw [hopened'] at h
        cases h
      · rw [hacc] at he
        cases he
    | false =>
      refine hs.frame (by rw [hmem, EpochOp.exec_closed hopen]) (by rw [hmem, EpochOp.exec_epochHashes hr]) ?_ hpast
        fun _ => hahead
      rw [hhist]
      cases op <;> first | rfl | exact absurd rfl hopen | cases hr

theorem Unwiped.main (hs : s.Unwiped) {input : MainInput} (hg : s.ResetsGuarded (.main input)) {m : MainMemory}
    {pc : MainPc} {ev : MainEvent}
    (h : MainStep su.drillx su.config.poolId s.history.rounds.length ⟨s.mem, s.chain⟩ input s.main m pc ev) :
    ({ s with mem := m.mem, chain := m.chain, main := pc }.event s.mem ev).Unwiped := by
  have hpast : pc.pastSnapshot = true → s.main.pastSnapshot = true ∨ ∃ r, ev = .snapshot r := h.pastSnapshot
  have hahead : s.history.opened.isSome → s.main.resetAhead = false → pc.resetAhead = false := by
    intro hopened hno
    refine h.resetAhead hno (Bool.eq_false_of_not_eq_true fun henter => ?_)
    obtain ⟨hc, hp⟩ := hg.1 henter
    rw [hs.opened hopened hc] at hp
    cases hp
  -- a step that leaves the window and the history alone, and whose watchers have no reset ahead
  have frame : ∀ {s' : Mining}, s'.mem.closed = s.mem.closed → s'.mem.epochHashes = s.mem.epochHashes →
      s'.history = s.history → s'.main = pc → (¬∃ r, ev = .snapshot r) →
      ((∀ w ∈ s.watchers, w.pc.resetAhead = false) → ∀ w ∈ s'.watchers, w.pc.resetAhead = false) → s'.Unwiped := by
    intro s' hclosed hepoch hhist hmain hev hw
    refine hs.frame hclosed hepoch hhist (fun hp => ?_) fun hopened hno => ⟨?_, hw hno.2⟩
    · rw [hmain] at hp
      exact (hpast hp).resolve_right hev
    · rw [hmain]
      exact hahead hopened hno.1
  have hop : ∀ {op}, s.main.ops.head? = some op → ∀ {o}, input = .op o → op = .openWindow →
      s.main.resetAhead = false ∧ ∀ w ∈ s.watchers, w.pc.resetAhead = false := by
    rintro op hhead o rfl rfl
    exact hg.2 hhead
  generalize hpc : s.main = pc₀ at h
  cases h with
  | close =>
    refine ⟨fun _ _ => rfl, fun h => ⟨rfl, (hs.ahead h).2⟩, hs.empty, hs.kept⟩
  | snapshot => exact ⟨fun h => (by cases h), fun h => (by cases h), fun _ => rfl, fun e he => (by cases he)⟩
  | @enterOp o op ops | @discardOp o r op ops =>
    refine hs.op (hop (by rw [hpc]; rfl) rfl) (fun hr => Or.inl ?_) rfl rfl
      (fun hp => (hpast hp).resolve_right (by rintro ⟨_, ⟨⟩⟩)) fun hno => ⟨?_, hno.2⟩
    · rw [hpc]
      show (op :: ops).any EpochOp.resets = true
      rw [List.any_cons, hr, Bool.true_or]
    · rw [hpc] at hno
      exact EpochOp.any_resets_exec hno.1
  | sent =>
    refine frame rfl rfl rfl rfl (by rintro ⟨_, ⟨⟩⟩) fun hw w hmem => ?_
    rcases List.mem_append.1 hmem with hmem | hmem
    · exact hw w hmem
    · rw [List.mem_singleton.1 hmem]
      rfl
  | success | failed =>
    refine frame rfl rfl rfl rfl (by rintro ⟨_, ⟨⟩⟩) fun hw w hmem => ?_
    obtain ⟨w', hw', rfl⟩ := List.mem_map.1 hmem
    unfold stopWatcher
    split <;> exact hw w' hw'
  | _ => exact frame rfl rfl rfl rfl (by rintro ⟨_, ⟨⟩⟩) id

theorem Unwiped.step (hs : s.Unwiped) (hg : s.ResetsGuarded a) (h : Step su s a s') : s'.Unwiped := by
  cases h with
  | main h => exact hs.main hg h
  | @watcher k input w m pc op hw h =>
    have hmem : w ∈ s.watchers := List.mem_of_getElem? hw
    have hset : ∀ pc, pc.resetAhead = false → (∀ w ∈ s.watchers, w.pc.resetAhead = false) →
        ∀ w' ∈ s.watchers.set k { w with pc := pc }, w'.pc.resetAhead = false := by
      intro pc hpc hno w' hw'
      rcases List.mem_or_eq_of_mem_set hw' with hw' | rfl
      · exact hno w' hw'
      · exact hpc
    cases h with
    | move _ hpc =>
      refine hs.frame rfl rfl rfl id fun _ hno => ⟨hno.1, hset _ ?_ hno.2⟩
      rw [WatcherPc.resetAhead, hpc]
      rfl
    | enterWs hpc hne | enterRpc hpc hne =>
      -- the branch is taken while the window is closed behind a snapshot, so it was not opened
      obtain ⟨hc, hp⟩ := hg.1 (by simp [entersReset, hw, Watcher.entersReset, hpc, hne])
      refine hs.frame rfl rfl rfl id fun hopened => ?_
      rw [hs.opened hopened hc] at hp
      cases hp
    | @op o op ops hpc =>
      refine hs.op (fun he => hg.2 ?_) (fun hr => Or.inr ⟨w, hmem, ?_⟩) rfl rfl id fun hno =>
        ⟨hno.1, hset _ ?_ hno.2⟩
      · simp [nextOp?, hw, hpc, WatcherPc.ops, he]
      · rw [hpc]
        show (op :: ops).any EpochOp.resets = true
        rw [List.any_cons, hr, Bool.true_or]
      · have hno' := hno.2 w hmem
        rw [hpc] at hno'
        exact EpochOp.any_resets_exec hno'
  | @handler k msg pc pc' m ht h =>
    cases h with
    | @write minerId validated =>
      have hins : ∀ {u}, u ∈ s.mem.epochHashes.submissions →
          u ∈ (s.mem.epochHashes.accept msg (msg.submission su.drillx minerId)).submissions := fun hu =>
        (AList.mem_insert _).2 (Or.inr hu)
      cases hopened : s.history.opened with
      | none =>
        have hacc : s.history.accept msg (.write minerId validated) = s.history := by
          simp [History.accept, hopened]
        rw [hacc]
        exact ⟨hs.opened, hs.ahead, hs.empty, fun e he => hins (hs.kept e he)⟩
      | some c =>
        have hacc : s.history.accept msg (.write minerId validated) =
            { s.history with accepted := ⟨msg.uuid, validated⟩ :: s.history.accepted } := by
          simp [History.accept, hopened]
        rw [hacc]
        refine ⟨hs.opened, hs.ahead, fun h => ?_, fun e he => ?_⟩
        · rw [show s.history.opened = none from h] at hopened
          cases hopened
        · rcases List.mem_cons.1 he with rfl | he
          · exact (AList.mem_insert _).2 (Or.inl rfl)
          · exact hins (hs.kept e he)
    | refuse _ hne => exact hs.frame rfl rfl (s.history.accept_of_ne msg hne) id fun _ hno => hno
    | _ => exact hs.frame rfl rfl rfl id fun _ hno => hno
  | _ => exact hs.frame rfl rfl rfl id fun _ hno => hno

theorem start_unwiped (proof : Proof) (db : Database) : (start proof db).Unwiped where
  opened _ h := by cases h
  ahead _ := ⟨rfl, fun w hw => by cases hw⟩
  empty h := by cases h
  kept e he := by cases he

/-- If no task enters an epoch behind the back of another, an entry that is accepted after the window was opened, for
whatever challenge it was validated, stays in the submissions until the main loop takes its snapshot. -/
theorem accepted_kept (su : MiningSetup) (proof : Proof) (db : Database) {s' : Mining} {as : List Action}
    (hg : Along (step su) ResetsGuarded (start proof db) as) (h : run (step su) (start proof db) as = some s') :
    ∀ e ∈ s'.history.accepted, e.uuid ∈ s'.mem.epochHashes.submissions :=
  (run_invariant (fun hs hC hstep => Unwiped.step hs hC (step_sound hstep)) (start_unwiped proof db) hg h).kept

/-- A round with one solution, up to the comparison of the challenges by the main loop. -/
def roundWithWatcher : List Action := exampleWorld ++ accept 0 (exampleBest 1 1) ++ finishRound

/-- Clients get new nonce ranges, and one of them has a solution. -/
def acceptNext : List Action := exampleWorld ++ accept 1 (exampleBest 1 2)

theorem accepted_kept_example :
    ∃ s', run (step exampleMiningSetup) exampleStart (roundWithWatcher ++ watcherEnters ++ [.main .go] ++
      acceptNext) = some s' ∧ s'.history.accepted = [⟨1, filled 2⟩] ∧
      1 ∈ s'.mem.epochHashes.submissions := by
  have hrun : ∃ s', run (step exampleMiningSetup) exampleStart (roundWithWatcher ++ watcherEnters ++ [.main .go] ++
      acceptNext) = some s' ∧ s'.history.accepted = [⟨1, filled 2⟩] := exists_of_run (by decide +kernel)
  obtain ⟨s', h, hacc⟩ := hrun
  refine ⟨s', h, hacc, accepted_kept exampleMiningSetup _ _ (by decide +kernel) h ⟨1, filled 2⟩ ?_⟩
  rw [hacc]
  exact List.mem_singleton_self _

/-- The main loop compares the challenges before the watcher enters the epoch, and resets after a solution for the new
challenge was accepted. -/
theorem accepted_wiped :
    ∃ s', run (step exampleMiningSetup) exampleStart (roundWithWatcher ++ [.main .go] ++ watcherEnters ++ acceptNext ++
      List.replicate 3 (.main (.op .executed))) = some s' ∧
      s'.history.opened = some (filled 2) ∧ s'.history.accepted = [⟨1, filled 2⟩] ∧
      s'.mem.epochHashes.submissions.keys = [] :=
  exists_of_run (by decide +kernel)

end Mining

end BitzPool
