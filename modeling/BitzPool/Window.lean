import BitzPool.Lib.Run
import BitzPool.MiningSteps

/-!
# The submission window

A handler reads `closed` once, at its start, and writes several steps later.  The main loop closes the window and then
snapshots the submissions, but waits for no handler that read the window open: such a handler can write after the
snapshot, and its entry is not paid.  Also the window can be opened by the branch of another task after it was closed.
In the runs without either (`WindowGuarded`) the submissions stay what the snapshot says until they are reset
(`snapshot_kept`).
-/

namespace BitzPool

open Transition

namespace Mining

/-- The snapshot is taken when no handler is left that saw the window open, and the window is not opened between the
close and the reset of the submissions. -/
def WindowGuarded (s : Mining) (a : Action) : Prop :=
  (a matches .main .go → s.main.atSnapshot → ∀ t ∈ s.handlers, t.2.sawOpen = false) ∧
    (s.nextOp? a = some .openWindow → s.main.atSnapshot = false ∧ s.history.snapshot = none)

instance (s : Mining) (a : Action) : Decidable (s.WindowGuarded a) := inferInstanceAs (Decidable (_ ∧ _))

/-- The invariant: between the close and the snapshot the window is closed, and between the snapshot and the reset no
handler saw it open, and nothing was written. -/
structure Windowed (s : Mining) : Prop where
  closed : s.main.atSnapshot → s.mem.closed
  kept : ∀ {subs}, s.history.snapshot = some subs → s.mem.closed = true ∧
    (∀ t ∈ s.handlers, t.2.sawOpen = false) ∧ s.mem.epochHashes.submissions = subs ∧
      ∀ r, s.main.round? = some r → r.submissions = subs

variable {su : MiningSetup} {s s' : Mining} {a : Action}

/-- Steps that touch neither the window nor the submissions. -/
private theorem Windowed.frame (hs : s.Windowed) (hclosed : s'.mem.closed = s.mem.closed)
    (hepoch : s'.mem.epochHashes = s.mem.epochHashes)
    (hhandlers : ∀ t ∈ s'.handlers, t.2.sawOpen → s.mem.closed = false ∨ t ∈ s.handlers)
    (hsnapshot : s'.history.snapshot = s.history.snapshot) (hat : s'.main.atSnapshot → s'.mem.closed = true)
    (hround : ∀ r, s'.main.round? = some r → s.main.round? = some r) : s'.Windowed where
  closed := hat
  kept {subs} h := by
    obtain ⟨h1, h2, h3, h4⟩ := hs.kept (hsnapshot ▸ h)
    refine ⟨hclosed ▸ h1, fun t ht => ?_, hepoch ▸ h3, fun r hr => h4 r (hround r hr)⟩
    by_contra hopen
    rcases hhandlers t ht (by simpa using hopen) with hc | ht'
    · rw [hc] at h1
      cases h1
    · exact hopen (h2 t ht')

/-- The execution of an operation, by the main loop or a watcher. -/
private theorem Windowed.op (hs : s.Windowed) {cfg : RowId} {o : CallOutcome} {op : EpochOp}
    (hop : op = .openWindow → s.main.atSnapshot = false ∧ s.history.snapshot = none)
    (hmem : s'.mem = (op.exec cfg o s.mem).1) (hhist : s'.history = s.history.exec s.mem op)
    (hhandlers : s'.handlers = s.handlers) (hat : s'.main.atSnapshot → s.main.atSnapshot)
    (hround : ∀ r, s'.main.round? = some r → s.main.round? = some r) : s'.Windowed := by
  have hsnap : s'.history.snapshot = if op.resets then none else s.history.snapshot := by
    rw [hhist, History.exec_snapshot]
  by_cases hopen : op = .openWindow
  · obtain ⟨h1, h2⟩ := hop hopen
    refine ⟨fun h => ?_, fun h => ?_⟩
    · rw [hat h] at h1
      cases h1
    · rw [hsnap, h2, hopen] at h
      cases h
  · have hclosed : s'.mem.closed = s.mem.closed := by rw [hmem, EpochOp.exec_closed hopen]
    cases hres : op.resets with
    | true =>
      rw [hres] at hsnap
      exact ⟨fun h => hclosed ▸ hs.closed (hat h), fun h => by rw [hsnap] at h; cases h⟩
    | false =>
      rw [hres] at hsnap
      exact hs.frame hclosed (by rw [hmem, EpochOp.exec_epochHashes hres]) (fun t ht _ => Or.inr (hhandlers ▸ ht))
        hsnap (fun h => hclosed ▸ hs.closed (hat h)) hround

theorem Windowed.main (hs : s.Windowed) {input : MainInput} (hg : s.WindowGuarded (.main input)) {m : MainMemory}
    {pc : MainPc} {ev : MainEvent}
    (h : MainStep su.drillx su.config.poolId s.history.rounds.length ⟨s.mem, s.chain⟩ input s.main m pc ev) :
    ({ s with mem := m.mem, chain := m.chain, main := pc }.event s.mem ev).Windowed := by
  have hround : ∀ r, pc.round? = some r → s.main.round? = some r ∨ ev = .snapshot r := fun r hr => h.round? hr
  have hat : pc.atSnapshot = true → m.mem.closed = true := h.closed_of_atSnapshot
  generalize hpc : s.main = pc₀ at h
  cases h with
  | close =>
    refine ⟨fun _ => rfl, fun hsn => ?_⟩
    obtain ⟨-, h2, h3, -⟩ := hs.kept hsn
    exact ⟨rfl, h2, h3, fun r hr => by cases hr⟩
  | snapshot hr =>
    refine ⟨fun h => (by cases h), fun hsn => ?_⟩
    cases hsn
    have hat' : s.main.atSnapshot = true := by rw [hpc]; rfl
    exact ⟨hs.closed hat', hg.1 rfl hat', by rw [hr]; rfl, fun r' hr' => by cases hr'; rfl⟩
  | enterOp | discardOp =>
    refine hs.op (fun he => hg.2 ?_) rfl rfl rfl (fun h => by cases h) fun r hr => ?_
    · simp [nextOp?, hpc, MainPc.ops, he]
    · exact (hround r hr).resolve_right (by rintro ⟨⟩)
  | _ =>
    exact hs.frame rfl rfl (fun t ht _ => Or.inr ht) rfl hat fun r hr => (hround r hr).resolve_right (by rintro ⟨⟩)

theorem Windowed.step (hs : s.Windowed) (hg : s.WindowGuarded a) (h : Step su s a s') : s'.Windowed := by
  cases h with
  | main h => exact hs.main hg h
  | @watcher k input w m pc op hw h =>
    cases h with
    | @op o op ops hpc =>
      refine hs.op (fun he => hg.2 ?_) rfl rfl rfl id fun r hr => hr
      simp [nextOp?, hw, hpc, WatcherPc.ops, he]
    | _ => exact hs.frame rfl rfl (fun t ht _ => Or.inr ht) rfl hs.closed fun r hr => hr
  | message =>
    refine hs.frame rfl rfl (fun t ht hopen => ?_) rfl hs.closed fun r hr => hr
    rcases List.mem_append.1 ht with ht | ht
    · exact Or.inr ht
    · rw [List.mem_singleton.1 ht] at hopen
      cases hopen
  | @handler k msg pc pc' m ht h =>
    have hsn := History.accept_snapshot s.history msg pc
    have hmem : ∀ t ∈ s.handlers.set k (msg, pc'), t = (msg, pc') ∨ t ∈ s.handlers := fun t ht =>
      (List.mem_or_eq_of_mem_set ht).symm
    have hold : (msg, pc) ∈ s.handlers := List.mem_of_getElem? ht
    cases h with
    | write =>
      -- after the snapshot no handler can be about to write
      refine ⟨hs.closed, fun h => ?_⟩
      exact absurd ((hs.kept (hsn ▸ h)).2.1 _ hold) (by simp [HandlerPc.sawOpen])
    | inTime hc => exact hs.frame rfl rfl (fun t _ _ => Or.inl hc) hsn hs.closed fun r hr => hr
    | late | refuse =>
      refine hs.frame rfl rfl (fun t ht hopen => ?_) hsn hs.closed fun r hr => hr
      rcases hmem t ht with rfl | ht
      · cases hopen
      · exact Or.inr ht
    | ranges | socket | proof | read =>
      refine ⟨hs.closed, fun h => ?_⟩
      exact absurd ((hs.kept (hsn ▸ h)).2.1 _ hold) (by simp [HandlerPc.sawOpen])
  | _ => exact hs.frame rfl rfl (fun t ht _ => Or.inr ht) rfl hs.closed fun r hr => hr

theorem start_windowed (proof : Proof) (db : Database) : (start proof db).Windowed where
  closed h := by cases h
  kept h := by cases h

/-- If the snapshot waits for the handlers that saw the window open, and the window is not opened behind the main
loop's back, no handler writes between the snapshot of a round and the reset of the submissions: they are what the
snapshot says, and the main loop's round carries them. -/
theorem snapshot_kept (su : MiningSetup) (proof : Proof) (db : Database) {s' : Mining} {as : List Action}
    (hg : Along (step su) WindowGuarded (start proof db) as) (h : run (step su) (start proof db) as = some s')
    {subs : Submissions} (hsub : s'.history.snapshot = some subs) :
    s'.mem.epochHashes.submissions = subs ∧ ∀ r, s'.main.round? = some r → r.submissions = subs :=
  ((run_invariant (fun hs hC hstep => Windowed.step hs hC (step_sound hstep)) (start_windowed proof db) hg h).kept
    hsub).2.2

theorem snapshot_kept_example :
    ∃ s' subs, run (step exampleMiningSetup) exampleStart (exampleWorld ++ accept 0 (exampleBest 1 1) ++
      List.replicate 60 .tick ++ takeSnapshot) = some s' ∧ s'.history.snapshot = some subs ∧
      s'.mem.epochHashes.submissions = subs := by
  have hrun : ∃ s', run (step exampleMiningSetup) exampleStart (exampleWorld ++ accept 0 (exampleBest 1 1) ++
      List.replicate 60 .tick ++ takeSnapshot) = some s' ∧ s'.history.snapshot.isSome :=
    exists_of_run (by decide +kernel)
  obtain ⟨s', h, hs⟩ := hrun
  obtain ⟨subs, hsub⟩ := Option.isSome_iff_exists.1 hs
  exact ⟨s', subs, h, hsub, (snapshot_kept exampleMiningSetup _ _ (by decide +kernel) h hsub).1⟩

/-- The handler of connection 2 reads the window open, the main loop closes it and snapshots the submissions, and the
handler writes; the payout is made for the snapshot. -/
theorem snapshot_missed :
    ∃ s', run (step exampleMiningSetup) exampleStart (exampleWorld ++ accept 0 (exampleBest 1 1) ++
      [.message (exampleBest 2 1), .handler 1] ++ List.replicate 60 .tick ++ takeSnapshot ++
        List.replicate 5 (.handler 1) ++ sendTx ++ seeFinalized ⟨0, 0⟩) = some s' ∧
      s'.history.snapshot.map AList.keys = some [1] ∧
      s'.mem.epochHashes.submissions.keys = [2, 1] ∧
      s'.payouts.map (fun t => t.1.submissions.keys) = [[1]] :=
  exists_of_run (by decide +kernel)

end Mining

end BitzPool
