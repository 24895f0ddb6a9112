import BitzPool.Lib.Run
import BitzPool.Lib.Update
import BitzPool.MiningSteps

/-!
# The best submission of a connection

A handler compares its solution with the entry it reads, and writes in a later step whatever the entry is by then.
Two handlers of one connection can both read before either writes, and the one that writes last leaves its solution,
be it the worse one; the best hash then belongs to no entry.

In the runs of an epoch in which every write still improves on the entry it replaces (`Rechecked`), an entry holds
the highest difficulty among the solutions of its connection that passed the checks, and some entry carries the best
hash (`best_kept`).
-/

namespace BitzPool

open Transition Update

/-- The solution passed the checks: it is written, or an entry at least as good is there. -/
def HandlerEnd.admissible : HandlerEnd → Bool
  | .written | .notBetter => true
  | .late | .noRange | .outOfRange | .noSocket | .invalid | .lowDiff => false

namespace Mining

/-- A handler of `msg` that had not ended in `s₀` has ended with `e` in `s`. -/
def Finished (s₀ s : Mining) (msg : BestSolution) (e : HandlerEnd) : Prop :=
  ∃ k : ℕ, s.handlers[k]? = some (msg, .done e) ∧ s₀.handlers[k]? ≠ some (msg, .done e)

/-- The action does not reset the submissions. -/
def NoReset (s : Mining) (a : Action) : Prop := ∀ op ∈ s.nextOp? a, op.resets = false

instance (s : Mining) (a : Action) : Decidable (s.NoReset a) :=
  inferInstanceAs (Decidable (∀ op ∈ s.nextOp? a, op.resets = false))

/-- A handler that writes still improves on the entry of its connection. -/
def Rechecked (dx : Drillx) (s : Mining) : Action → Prop
  | .handler k => ∀ t ∈ s.handlers[k]?, (t.2 matches .write _ _) →
      ∀ old ∈ s.mem.epochHashes.submissions.lookup t.1.uuid, old.suppliedDiff < dx.difficulty t.1.solution
  | _ => True

instance (dx : Drillx) (s : Mining) (a : Action) : Decidable (s.Rechecked dx a) :=
  match a with
  | .handler k => inferInstanceAs (Decidable (∀ t ∈ s.handlers[k]?, (t.2 matches .write _ _) →
      ∀ old ∈ s.mem.epochHashes.submissions.lookup t.1.uuid, old.suppliedDiff < dx.difficulty t.1.solution))
  | .tick | .main _ | .watcher _ _ | .notify _ | .track | .message _ | .payout _ _ | .land _ _ | .connections _
  | .nonceRanges _ _ | .database _ => isTrue trivial

/-- The start of an epoch: the submissions were just reset.  Handlers of the epoch before may still be running. -/
structure EpochStart (s : Mining) : Prop where
  best : s.mem.epochHashes.bestHash = ⟨none, 0⟩
  submissions : s.mem.epochHashes.submissions = ∅

/-- The entries hold the best of the solutions of their connections, and one of them carries the best hash. -/
structure BestKept (dx : Drillx) (s₀ s : Mining) : Prop where
  highest : ∀ {msg e}, Finished s₀ s msg e → e.admissible →
    ∃ sub, s.mem.epochHashes.submissions.lookup msg.uuid = some sub ∧ dx.difficulty msg.solution ≤ sub.suppliedDiff
  written : ∀ {uuid sub}, s.mem.epochHashes.submissions.lookup uuid = some sub →
    ∃ msg minerId, Finished s₀ s msg .written ∧ msg.uuid = uuid ∧ sub = msg.submission dx minerId
  best : ∀ {sol}, s.mem.epochHashes.bestHash.solution = some sol →
    ∃ uuid sub, s.mem.epochHashes.submissions.lookup uuid = some sub ∧ sub.suppliedNonce = sol.nonce ∧
      sub.suppliedDiff = s.mem.epochHashes.bestHash.difficulty

/-! ### The invariant -/

/-- The invariant: this, and a handler that ended in an earlier epoch does not move. -/
structure Keeping (dx : Drillx) (s₀ s : Mining) : Prop where
  kept : BestKept dx s₀ s
  settled : ∀ {k : ℕ} {msg e}, s₀.handlers[k]? = some (msg, .done e) → s.handlers[k]? = some (msg, .done e)

variable {dx : Drillx} {su : MiningSetup} {s₀ s s' : Mining} {a : Action}

/-- A step that leaves the submissions alone, and ends no handler. -/
private theorem Keeping.frame (hs : Keeping dx s₀ s) (hepoch : s'.mem.epochHashes = s.mem.epochHashes)
    (hdone : ∀ {k : ℕ} {msg e}, s'.handlers[k]? = some (msg, .done e) ↔ s.handlers[k]? = some (msg, .done e)) :
    Keeping dx s₀ s' := by
  have hfin : ∀ {msg e}, Finished s₀ s' msg e ↔ Finished s₀ s msg e := fun {msg e} =>
    exists_congr fun k => and_congr_left fun _ => hdone
  refine ⟨⟨fun hf => ?_, fun hl => ?_, fun hb => ?_⟩, fun h => hdone.2 (hs.settled h)⟩
  · rw [hepoch]
    exact hs.kept.highest (hfin.1 hf)
  · rw [hepoch] at hl
    obtain ⟨msg, minerId, hf, h⟩ := hs.kept.written hl
    exact ⟨msg, minerId, hfin.2 hf, h⟩
  · rw [hepoch] at hb ⊢
    exact hs.kept.best hb

section Move

variable {k : ℕ} {msg : BestSolution} {pc pc' : HandlerPc} (hk : s.handlers[k]? = some (msg, pc))
  (hpc : ∀ e, pc ≠ .done e) (hhandlers : s'.handlers = s.handlers.set k (msg, pc'))

include hhandlers

/-- What has ended after handler `k` moved had ended before, or it is that handler. -/
private theorem finished_of_moved {msg' : BestSolution} {e : HandlerEnd} (h : Finished s₀ s' msg' e) :
    Finished s₀ s msg' e ∨ msg' = msg ∧ pc' = .done e := by
  obtain ⟨j, hj, hold⟩ := h
  rw [hhandlers] at hj
  rcases getElem?_set_cases hj with ⟨-, he⟩ | ⟨-, hj⟩
  · cases he
    exact Or.inr ⟨rfl, rfl⟩
  · exact Or.inl ⟨j, hj, hold⟩

include hk hpc

/-- A handler that had ended does not move. -/
private theorem done_of_moved {j : ℕ} {msg' : BestSolution} {e : HandlerEnd}
    (h : s.handlers[j]? = some (msg', .done e)) : s'.handlers[j]? = some (msg', .done e) := by
  rw [hhandlers, List.getElem?_set_ne]
  · exact h
  · rintro rfl
    rw [hk] at h
    cases h
    exact hpc e rfl

/-- A handler that ends with its move has ended in this epoch. -/
private theorem Keeping.finished_moved (hs : Keeping dx s₀ s) {e : HandlerEnd} (he : pc' = .done e) :
    Finished s₀ s' msg e := by
  have hlt : k < s.handlers.length := (List.getElem?_eq_some_iff.1 hk).1
  refine ⟨k, ?_, fun h => ?_⟩
  · rw [hhandlers, List.getElem?_set_self hlt, he]
  · rw [hs.settled h] at hk
    cases hk
    exact hpc e rfl

/-- A move that writes nothing; if the handler found its solution not better, the entry says so. -/
private theorem Keeping.move (hs : Keeping dx s₀ s) (hepoch : s'.mem.epochHashes = s.mem.epochHashes)
    (hend : ∀ e, pc' = .done e → e.admissible → ∃ sub, s.mem.epochHashes.submissions.lookup msg.uuid = some sub ∧
      dx.difficulty msg.solution ≤ sub.suppliedDiff) : Keeping dx s₀ s' := by
  refine ⟨⟨fun hf he => ?_, fun hl => ?_, fun hb => ?_⟩, fun h => done_of_moved hk hpc hhandlers (hs.settled h)⟩
  · rw [hepoch]
    rcases finished_of_moved hhandlers hf with hf | ⟨rfl, hpc'⟩
    · exact hs.kept.highest hf he
    · exact hend _ hpc' he
  · rw [hepoch] at hl
    obtain ⟨msg', minerId, ⟨j, hj, hold⟩, h⟩ := hs.kept.written hl
    exact ⟨msg', minerId, ⟨j, done_of_moved hk hpc hhandlers hj, hold⟩, h⟩
  · rw [hepoch] at hb ⊢
    exact hs.kept.best hb

end Move

/-- A write that improves on the entry it replaces. -/
private theorem Keeping.write (hs : Keeping dx s₀ s) {k : ℕ} {msg : BestSolution} {minerId : MinerId}
    {validated : Challenge} (hk : s.handlers[k]? = some (msg, .write minerId validated))
    (hhandlers : s'.handlers = s.handlers.set k (msg, .done .written))
    (hepoch : s'.mem.epochHashes = s.mem.epochHashes.accept msg (msg.submission dx minerId))
    (hrecheck : ∀ old, s.mem.epochHashes.submissions.lookup msg.uuid = some old →
      old.suppliedDiff < dx.difficulty msg.solution) : Keeping dx s₀ s' := by
  have hpc : ∀ e, HandlerPc.write minerId validated ≠ .done e := by simp
  have hown : s'.mem.epochHashes.submissions.lookup msg.uuid = some (msg.submission dx minerId) := by
    rw [hepoch]
    exact AList.lookup_insert _
  have hother : ∀ {uuid}, uuid ≠ msg.uuid →
      s'.mem.epochHashes.submissions.lookup uuid = s.mem.epochHashes.submissions.lookup uuid := by
    intro uuid hne
    rw [hepoch]
    exact AList.lookup_insert_ne hne
  refine ⟨⟨fun {msg' e} hf he => ?_, fun {uuid sub} hl => ?_, fun {sol} hb => ?_⟩,
    fun h => done_of_moved hk hpc hhandlers (hs.settled h)⟩
  · rcases finished_of_moved hhandlers hf with hf | ⟨rfl, -⟩
    · obtain ⟨sub, hsub, hle⟩ := hs.kept.highest hf he
      by_cases hu : msg'.uuid = msg.uuid
      · rw [hu] at hsub ⊢
        exact ⟨_, hown, UInt32.le_trans hle (UInt32.le_of_lt (hrecheck sub hsub))⟩
      · exact ⟨sub, (hother hu).trans hsub, hle⟩
    · exact ⟨_, hown, UInt32.le_refl _⟩
  · by_cases hu : uuid = msg.uuid
    · rw [hu, hown] at hl
      cases hl
      exact ⟨msg, minerId, hs.finished_moved hk hpc hhandlers rfl, hu.symm, rfl⟩
    · rw [hother hu] at hl
      obtain ⟨msg', minerId', ⟨j, hj, hold⟩, h⟩ := hs.kept.written hl
      exact ⟨msg', minerId', ⟨j, done_of_moved hk hpc hhandlers hj, hold⟩, h⟩
  · by_cases hlt : s.mem.epochHashes.bestHash.difficulty < dx.difficulty msg.solution
    · -- the new solution is the best one, and its entry carries it
      have hbest : s'.mem.epochHashes.bestHash = ⟨some msg.solution, dx.difficulty msg.solution⟩ := by
        rw [hepoch]
        exact if_pos hlt
      rw [hbest] at hb ⊢
      cases hb
      exact ⟨msg.uuid, _, hown, rfl, rfl⟩
    · -- the entry that carries the best one is not replaced: the write would not improve on it
      have hbest : s'.mem.epochHashes.bestHash = s.mem.epochHashes.bestHash := by
        rw [hepoch]
        exact if_neg hlt
      rw [hbest] at hb ⊢
      obtain ⟨uuid, sub, hsub, hn, hd⟩ := hs.kept.best hb
      have hne : uuid ≠ msg.uuid := by
        rintro rfl
        exact hlt (hd ▸ hrecheck sub hsub)
      exact ⟨uuid, sub, (hother hne).trans hsub, hn, hd⟩

theorem Keeping.step (hs : Keeping su.drillx s₀ s) (hreset : s.NoReset a) (hcheck : s.Rechecked su.drillx a)
    (h : Step su s a s') : Keeping su.drillx s₀ s' := by
  by_cases ha : ∃ k, a = .handler k
  · obtain ⟨k, rfl⟩ := ha
    cases h with
    | @handler _ msg pc pc' m hk h =>
      cases h with
      | write => exact hs.write hk rfl rfl fun old hold => hcheck _ hk rfl old hold
      | @refuse _ e hopen _ hne hnb =>
        refine hs.move hk (by rintro e rfl; cases hopen) rfl rfl ?_
        rintro _ ⟨⟩ he
        refine hnb ?_
        cases e <;> first | rfl | exact absurd rfl hne | cases he
      | late => exact hs.move hk (by simp) rfl rfl (by rintro e ⟨⟩ ⟨⟩)
      | _ => exact hs.move hk (by simp) rfl rfl (by rintro e ⟨⟩)
  · have ha : ∀ k, a ≠ .handler k := fun k h => ha ⟨k, h⟩
    have hepoch : s'.mem.epochHashes = s.mem.epochHashes := by
      rcases h.epochHashes ha with h | ⟨c, c', hop, -⟩
      · exact h
      · cases hreset _ hop
    refine hs.frame hepoch fun {k msg e} => ?_
    rcases h.handlers ha with h | ⟨msg', h⟩
    · rw [h]
    · rw [h, List.getElem?_append]
      split
      · exact Iff.rfl
      · next hlt =>
        rw [List.getElem?_eq_none (Nat.le_of_not_lt hlt), List.getElem?_singleton]
        split <;> simp

theorem EpochStart.keeping (h : s.EpochStart) : Keeping dx s s where
  kept := by
    refine ⟨?_, ?_, ?_⟩
    · rintro msg e ⟨k, h1, h2⟩
      exact absurd h1 h2
    · intro uuid sub hl
      rw [h.submissions] at hl
      cases hl
    · intro sol hb
      rw [h.best] at hb
      cases hb
  settled := id

/-- In the runs of one epoch in which every write improves on the entry it replaces, the entry of a connection holds
the highest difficulty among its solutions that passed the checks, as one of them has it, and some entry carries the
best hash. -/
theorem best_kept (su : MiningSetup) {s s' : Mining} {as : List Action} (h0 : s.EpochStart)
    (hC : Along (step su) (fun s a => s.NoReset a ∧ s.Rechecked su.drillx a) s as)
    (h : run (step su) s as = some s') : BestKept su.drillx s s' :=
  (run_invariant (fun hs hC hstep => Keeping.step hs hC.1 hC.2 (step_sound hstep)) h0.keeping hC h).kept

/-! ### Examples -/

/-- Solutions whose difficulty grows with the first byte of the nonce. -/
def gradedSetup : MiningSetup :=
  { exampleMiningSetup with drillx := { exampleDrillx with difficulty := fun s => 12 + s.n.head.toUInt32 } }

/-- A solution of connection 1 with a nonce below 256. -/
def gradedBest (nonce : UInt8) : BestSolution where
  addr := .v4 0 1
  solution := ⟨List.Vector.replicate 16 1, nonce ::ᵥ List.Vector.replicate 7 0⟩
  uuid := 1

theorem best_kept_example :
    ∃ s', run (step gradedSetup) exampleStart (exampleWorld ++ accept 0 (gradedBest 3) ++ accept 1 (gradedBest 5)) =
        some s' ∧ s'.mem.epochHashes.submissions.keys = [1] ∧ BestKept gradedSetup.drillx exampleStart s' := by
  have hrun : ∃ s', run (step gradedSetup) exampleStart
      (exampleWorld ++ accept 0 (gradedBest 3) ++ accept 1 (gradedBest 5)) = some s' ∧
        s'.mem.epochHashes.submissions.keys = [1] := exists_of_run (by decide +kernel)
  obtain ⟨s', h, hkeys⟩ := hrun
  exact ⟨s', h, hkeys, best_kept gradedSetup ⟨rfl, rfl⟩ (by decide +kernel) h⟩

/-- Two handlers of one connection read before either writes: the better solution is written first and replaced, and
no entry carries the best hash. -/
theorem best_replaced :
    ∃ s', run (step gradedSetup) exampleStart (exampleWorld ++ [.message (gradedBest 5), .message (gradedBest 3)] ++
        List.replicate 5 (.handler 0) ++ List.replicate 5 (.handler 1) ++ [.handler 0, .handler 1]) = some s' ∧
      s'.handlers = [(gradedBest 5, .done .written), (gradedBest 3, .done .written)] ∧
      s'.mem.epochHashes.submissions.entries.map (fun e => (e.1, e.2.suppliedNonce, e.2.suppliedDiff)) = [(1, 3, 15)] ∧
      s'.mem.epochHashes.bestHash = ⟨some (gradedBest 5).solution, 17⟩ :=
  exists_of_run (by decide +kernel)

end Mining

end BitzPool
