import BitzPool.MiningSteps

/-!
# Four ways into an epoch

A new epoch is entered by the watcher of a transaction or by the main loop, with the new proof from the RPC node or from
the websocket: four copies of one sequence of updates.  `entered_iff` runs each of them alone, with a healthy database,
and says when it comes out where it should.  The two of the watcher always do.  The two of the main loop leave the last
challenge as it is, and the one with the proof from the RPC node adds a row for the challenge it had read before.
-/

namespace BitzPool

open Keyed Transition

/-- The branches of `pool_submission_system` that enter an epoch; the watcher `k` runs the first two. -/
inductive EntryPath
  | watcherRpc (k : ℕ)
  | watcherWs (k : ℕ)
  | mainRpc
  | mainWs

/-- The memory is that of the epoch of `p`, after the one of `old`; the database was `db`. -/
structure Entered (old p : Proof) (db : Database) (m : EpochMemory) : Prop where
  proof : m.proof.challenge = p.challenge
  lastChallenge : m.lastChallenge = old.challenge
  nonce : m.nonce = 0
  ranges : m.clientNonceRanges = ∅
  epochHashes : m.epochHashes = ⟨p.challenge, ⟨none, 0⟩, ∅⟩
  opened : m.closed = false
  /-- one row for the new challenge -/
  row : ∃ row, m.db.challenges.rows.filter (fun row => row.challenge = p.challenge) = [row]
  /-- no row for another one -/
  others : ∃ rows, m.db.challenges.rows = db.challenges.rows ++ rows ∧ ∀ row ∈ rows, row.challenge = p.challenge

/-- The tasks that enter epochs. -/
inductive EpochTask
  | watcher (k : ℕ)
  | main

namespace EpochTask

open Mining

/-- An operation of the task, with the outcome of its call. -/
def call (t : EpochTask) (o : CallOutcome) : Action :=
  match t with
  | .watcher k => .watcher k (.op o)
  | .main => .main (.op o)

/-- An operation of the task, with a healthy database. -/
def op : EpochTask → Action
  | .watcher k => .watcher k (.op .executed)
  | .main => .main (.op .executed)

def leave : EpochTask → Action
  | .watcher k => .watcher k .go
  | .main => .main .go

end EpochTask

namespace EntryPath

open Mining

def task : EntryPath → EpochTask
  | .watcherRpc k | .watcherWs k => .watcher k
  | .mainRpc | .mainWs => .main

/-- The reads by which the branch finds the new proof. -/
def reads (p : Proof) : EntryPath → List Action
  | .watcherRpc k => [.watcher k .go, .watcher k (.getProof (some p))]
  | .watcherWs k => [.watcher k .go]
  | .mainRpc => [.main .go, .main (.getProof (some p))]
  | .mainWs => [.main .go, .main .go]

/-- The branch, alone, with `n` operations. -/
def actions (p : Proof) (n : ℕ) (path : EntryPath) : List Action :=
  path.reads p ++ (List.replicate n path.task.op ++ [path.task.leave])

/-- The operations of the branch, when it has found `latest` in the server's memory. -/
def ops (old latest p : Proof) : EntryPath → List EpochOp
  | .watcherRpc _ => watcherRpcReset old p
  | .watcherWs _ => watcherWsReset old p
  | .mainRpc => mainRpcReset latest p
  | .mainWs => mainWsReset p

/-- The branch of the main loop finds in place what it does not write. -/
def InPlace (old p : Proof) (m : EpochMemory) : EntryPath → Prop
  | .watcherRpc _ | .watcherWs _ => True
  | .mainRpc => m.lastChallenge = old.challenge ∧ m.db.challenges.Has old.challenge ∧ m.db.challenges.Has p.challenge
  | .mainWs => m.lastChallenge = old.challenge

end EntryPath

/-- The operations ahead of a task that is in a branch. -/
def WatcherPc.entering? : WatcherPc → Option (List EpochOp)
  | .enter ops => some ops
  | _ => none

def MainPc.entering? : MainPc → Option (List EpochOp)
  | .enter ops => some ops
  | _ => none

theorem WatcherPc.entering?_eq_some {pc : WatcherPc} {ops : List EpochOp} :
    pc.entering? = some ops ↔ pc = .enter ops := by
  cases pc <;> simp [entering?]

theorem MainPc.entering?_eq_some {pc : MainPc} {ops : List EpochOp} : pc.entering? = some ops ↔ pc = .enter ops := by
  cases pc <;> simp [entering?]

/-- The proof of the round after which the main loop looks for a new one. -/
def MainPc.readsProof? : MainPc → Option Proof
  | .readProof r => some r.old
  | _ => none

theorem MainPc.readsProof?_eq_some {pc : MainPc} {old : Proof} :
    pc.readsProof? = some old ↔ ∃ r, pc = .readProof r ∧ r.old = old := by
  cases pc <;> simp [readsProof?]

/-- What an operation comes to with a healthy database: a challenge that has a row is not added. -/
def EpochOp.perform (cfg : RowId) (m : EpochMemory) : EpochOp → EpochMemory
  | .addChallenge c | .verifyChallenge c => { m with db := (addNewChallenge .executed ⟨cfg, c⟩ m.db).2 }
  | op => (op.exec cfg .executed m).1

/-- An operation is done at once, or after one more. -/
theorem EpochOp.exec_healthy (cfg : RowId) (m : EpochMemory) (op : EpochOp) :
    op.exec cfg .executed m = (op.perform cfg m, []) ∨
      ∃ op', op.exec cfg .executed m = (m, [op']) ∧ op'.exec cfg .executed m = (op.perform cfg m, []) := by
  cases op with
  | addChallenge c =>
    rcases hc : m.db.challenges.find? c with _ | row
    · obtain ⟨db, -, hadd, -⟩ := addNewChallenge_none hc cfg
      exact Or.inl (by simp [exec, perform, hadd])
    · have hadd := addNewChallenge_some hc cfg
      have hget := getChallengeByChallenge_some hc
      exact Or.inr ⟨.verifyChallenge c, by simp [exec, hadd], by simp [exec, perform, hadd, hget]⟩
  | verifyChallenge c =>
    rcases hc : m.db.challenges.find? c with _ | row
    · obtain ⟨db, -, hadd, -⟩ := addNewChallenge_none hc cfg
      have hget := getChallengeByChallenge_none hc
      exact Or.inr ⟨.addChallenge c, by simp [exec, hget], by simp [exec, perform, hadd]⟩
    · have hadd := addNewChallenge_some hc cfg
      have hget := getChallengeByChallenge_some hc
      exact Or.inl (by simp [exec, perform, hadd, hget])
  | _ => exact Or.inl rfl

namespace Mining

def entering? (s : Mining) : EpochTask → Option (List EpochOp)
  | .watcher k => s.watchers[k]?.bind fun w => w.pc.entering?
  | .main => s.main.entering?

/-- The task of a branch is about to look at the proof of the server, and will find what leads into the branch. -/
def AtEntry (s : Mining) (old p : Proof) : EntryPath → Prop
  | .watcherRpc k => (∃ w, s.watchers[k]? = some w ∧ w.pc = .readProof ∧ w.old = old) ∧
      s.mem.proof.challenge = old.challenge
  | .watcherWs k => (∃ w, s.watchers[k]? = some w ∧ w.pc = .readProof ∧ w.old = old) ∧ s.mem.proof = p
  | .mainRpc => s.main.readsProof? = some old ∧ s.mem.proof.challenge = old.challenge
  | .mainWs => s.main.readsProof? = some old ∧ s.mem.proof = p ∧ s.mem.epochHashes.challenge ≠ p.challenge

variable (su : MiningSetup) {s s' : Mining} {t : EpochTask} {op : EpochOp} {ops : List EpochOp}

/-! ### The operations of a branch -/

theorem entering?_watcher {k : ℕ} (h : s.entering? (.watcher k) = some ops) :
    ∃ w, s.watchers[k]? = some w ∧ w.pc = .enter ops := by
  obtain ⟨w, hw, hpc⟩ := Option.bind_eq_some_iff.1 h
  exact ⟨w, hw, WatcherPc.entering?_eq_some.1 hpc⟩

theorem entering?_main (h : s.entering? .main = some ops) : s.main = .enter ops := MainPc.entering?_eq_some.1 h

/-- The next operation of a branch. -/
theorem step_call (o : CallOutcome) (h : s.entering? t = some (op :: ops)) :
    ∃ s₁, step su s (t.call o) = some s₁ ∧ s₁.mem = (op.exec su.config.poolId o s.mem).1 ∧
      s₁.entering? t = some ((op.exec su.config.poolId o s.mem).2 ++ ops) := by
  have hsome : (step su s (t.call o)).isSome := by
    cases t with
    | watcher k =>
      obtain ⟨w, hw, hpc⟩ := entering?_watcher h
      simp [step, stepWatcher, EpochTask.call, hw, Watcher.step, hpc]
    | main =>
      have hpc := entering?_main h
      simp [step, stepMain, EpochTask.call, MainPc.step, hpc]
  obtain ⟨s₁, hs₁⟩ := Option.isSome_iff_exists.1 hsome
  refine ⟨s₁, hs₁, ?_⟩
  cases t with
  | watcher k =>
    obtain ⟨w, hw, hpc⟩ := entering?_watcher h
    have hk : k < s.watchers.length := (List.getElem?_eq_some_iff.1 hw).1
    simp only [step, stepWatcher, EpochTask.call, hw, Watcher.step, hpc, Option.bind_eq_bind, Option.bind_some,
      Option.pure_def, Option.some.injEq] at hs₁
    subst hs₁
    simp [entering?, List.getElem?_set_self hk, WatcherPc.entering?]
  | main =>
    have hpc := entering?_main h
    simp only [step, stepMain, EpochTask.call, MainPc.step, hpc, Option.bind_eq_bind, Option.bind_some,
      Option.pure_def, Option.some.injEq] at hs₁
    subst hs₁
    simp [entering?, MainPc.entering?]

private theorem step_op (h : s.entering? t = some (op :: ops)) :
    ∃ s₁, step su s t.op = some s₁ ∧ s₁.mem = (op.exec su.config.poolId .executed s.mem).1 ∧
      s₁.entering? t = some ((op.exec su.config.poolId .executed s.mem).2 ++ ops) := by
  have hop : t.op = t.call .executed := by cases t <;> rfl
  rw [hop]
  exact step_call su .executed h

/-- With no operation ahead the task leaves the branch. -/
private theorem step_nil (h : s.entering? t = some []) :
    step su s t.op = none ∧ ∃ s₁, step su s t.leave = some s₁ ∧ s₁.mem = s.mem := by
  cases t with
  | watcher k =>
    obtain ⟨w, hw, hpc⟩ := entering?_watcher h
    have hleave : step su s (.watcher k .go) = some { s with watchers := s.watchers.set k { w with pc := .done } } := by
      simp [step, stepWatcher, hw, Watcher.step, hpc]
    exact ⟨by simp [step, stepWatcher, EpochTask.op, hw, Watcher.step, hpc], _, hleave, rfl⟩
  | main =>
    have hpc := entering?_main h
    have hleave : step su s (.main .go) = some { s with main := .top } := by
      simp [step, stepMain, MainPc.step, hpc, event]
    exact ⟨by simp [step, stepMain, EpochTask.op, MainPc.step, hpc], _, hleave, rfl⟩

private theorem step_leave_cons (h : s.entering? t = some (op :: ops)) : step su s t.leave = none := by
  cases t with
  | watcher k =>
    obtain ⟨w, hw, hpc⟩ := entering?_watcher h
    simp [step, stepWatcher, EpochTask.leave, hw, Watcher.step, hpc]
  | main =>
    have hpc := entering?_main h
    simp [step, stepMain, EpochTask.leave, MainPc.step, hpc]

/-- The task performs operations and leaves its branch in the state `s'`. -/
def Leaves (su : MiningSetup) (t : EpochTask) (s s' : Mining) : Prop :=
  ∃ n, run (step su) s (List.replicate n t.op ++ [t.leave]) = some s'

private theorem leaves_nil (h : s.entering? t = some []) : Leaves su t s s' ↔ step su s t.leave = some s' := by
  constructor
  · rintro ⟨n, hn⟩
    cases n with
    | zero => simpa [run_cons] using hn
    | succ n =>
      obtain ⟨u, hu, -⟩ := run_cons.1 hn
      rw [(step_nil su h).1] at hu
      cases hu
  · intro hleave
    exact ⟨0, by simp [run_cons, hleave]⟩

private theorem leaves_cons (h : s.entering? t = some (op :: ops)) {s₁ : Mining} (hs₁ : step su s t.op = some s₁) :
    Leaves su t s s' ↔ Leaves su t s₁ s' := by
  constructor
  · rintro ⟨n, hn⟩
    cases n with
    | zero =>
      obtain ⟨u, hu, -⟩ := run_cons.1 hn
      rw [step_leave_cons su h] at hu
      cases hu
    | succ n =>
      obtain ⟨u, hu, hn⟩ := run_cons.1 hn
      cases hs₁.symm.trans hu
      exact ⟨n, hn⟩
  · rintro ⟨n, hn⟩
    exact ⟨n + 1, run_cons.2 ⟨s₁, hs₁, hn⟩⟩

/-- A branch alone, with a healthy database, performs its operations one after another. -/
private theorem leaves_iff (h : s.entering? t = some ops) :
    ∃ u, u.mem = ops.foldl (EpochOp.perform su.config.poolId) s.mem ∧ ∀ s', Leaves su t s s' ↔ s' = u := by
  induction ops generalizing s with
  | nil =>
    obtain ⟨-, u, hu, hmem⟩ := step_nil su h
    refine ⟨u, hmem, fun s' => ?_⟩
    rw [leaves_nil su h, hu, Option.some.injEq, eq_comm]
  | cons op ops ih =>
    obtain ⟨s₁, hs₁, hmem, hops⟩ := step_op su h
    rcases op.exec_healthy su.config.poolId s.mem with hexec | ⟨op', hexec, hexec'⟩
    · rw [hexec] at hmem hops
      obtain ⟨u, hu, hleaves⟩ := ih hops
      refine ⟨u, by rw [hu, hmem, List.foldl_cons], fun s' => ?_⟩
      rw [leaves_cons su h hs₁, hleaves]
    · -- a challenge that is in the table is looked up after the attempt to add it
      rw [hexec] at hmem hops
      obtain ⟨s₂, hs₂, hmem₂, hops₂⟩ := step_op su hops
      rw [hmem, hexec'] at hmem₂ hops₂
      obtain ⟨u, hu, hleaves⟩ := ih hops₂
      refine ⟨u, by rw [hu, hmem₂, List.foldl_cons], fun s' => ?_⟩
      rw [leaves_cons su h hs₁, leaves_cons su hops hs₂, hleaves]

/-! ### The four branches -/

variable {old p : Proof} {path : EntryPath}

private theorem entering?_reads (hne : old.challenge ≠ p.challenge) (hat : s.AtEntry old p path) :
    ∃ s₁, run (step su) s (path.reads p) = some s₁ ∧ s₁.mem = s.mem ∧
      s₁.entering? path.task = some (path.ops old s.mem.proof p) := by
  cases path with
  | watcherRpc k =>
    obtain ⟨⟨w, hw, hpc, rfl⟩, hold⟩ := hat
    have hk : k < s.watchers.length := (List.getElem?_eq_some_iff.1 hw).1
    have hread : step su s (.watcher k .go) =
        some { s with watchers := s.watchers.set k { w with pc := .getProof } } := by
      simp [step, stepWatcher, hw, Watcher.step, hpc, hold]
    refine ⟨_, run_cons.2 ⟨_, hread, run_cons.2 ⟨{ s with
      watchers := s.watchers.set k { w with pc := .enter (watcherRpcReset w.old p) } }, ?_, rfl⟩⟩, rfl, ?_⟩
    · simp [step, stepWatcher, List.getElem?_set_self hk, Watcher.step, hne]
    · simp [entering?, EntryPath.task, EntryPath.ops, List.getElem?_set_self hk, WatcherPc.entering?]
  | watcherWs k =>
    obtain ⟨⟨w, hw, hpc, rfl⟩, rfl⟩ := hat
    have hk : k < s.watchers.length := (List.getElem?_eq_some_iff.1 hw).1
    refine ⟨_, run_cons.2 ⟨{ s with
      watchers := s.watchers.set k { w with pc := .enter (watcherWsReset w.old s.mem.proof) } }, ?_, rfl⟩, rfl, ?_⟩
    · simp [step, stepWatcher, hw, Watcher.step, hpc, hne]
    · simp [entering?, EntryPath.task, EntryPath.ops, List.getElem?_set_self hk, WatcherPc.entering?]
  | mainRpc =>
    obtain ⟨hreads, hold⟩ := hat
    obtain ⟨r, hpc, rfl⟩ := MainPc.readsProof?_eq_some.1 hreads
    have hread : step su s (.main .go) = some { s with main := .getProof r s.mem.proof } := by
      simp [step, stepMain, MainPc.step, hpc, hold, event]
    refine ⟨{ s with main := .enter (mainRpcReset s.mem.proof p) },
      run_cons.2 ⟨_, hread, run_cons.2 ⟨_, ?_, rfl⟩⟩, rfl, rfl⟩
    simp [step, stepMain, MainPc.step, hne, event]
  | mainWs =>
    obtain ⟨hreads, rfl, hepoch⟩ := hat
    obtain ⟨r, hpc, rfl⟩ := MainPc.readsProof?_eq_some.1 hreads
    have hread : step su s (.main .go) = some { s with main := .compareEpoch r s.mem.proof } := by
      simp [step, stepMain, MainPc.step, hpc, hne, event]
    refine ⟨{ s with main := .enter (mainWsReset s.mem.proof) },
      run_cons.2 ⟨_, hread, run_cons.2 ⟨_, ?_, rfl⟩⟩, rfl, rfl⟩
    simp [step, stepMain, MainPc.step, Ne.symm hepoch, event]

/-- An addition to a table that comes to hold one row for `c`, and no new row for another challenge. -/
private theorem rows_iff (db : Database) (cfg : RowId) (c c' : Challenge) :
    ((∃ row, (addNewChallenge .executed ⟨cfg, c'⟩ db).2.challenges.rows.filter (fun row => row.challenge = c) = [row]) ∧
      ∃ rows, (addNewChallenge .executed ⟨cfg, c'⟩ db).2.challenges.rows = db.challenges.rows ++ rows ∧
        ∀ row ∈ rows, row.challenge = c) ↔ c' = c ∨ db.challenges.Has c' ∧ db.challenges.Has c := by
  rcases addNewChallenge_rows c' db cfg with ⟨hc', hdb⟩ | ⟨hc', row', hrow', hrows⟩
  · rw [hdb]
    constructor
    · rintro ⟨⟨row, hrow⟩, -⟩
      have hmem : row ∈ db.challenges.rows.filter fun row => row.challenge = c := hrow ▸ List.mem_singleton_self row
      obtain ⟨hmem, hc⟩ := List.mem_filter.1 hmem
      exact Or.inr ⟨hc', List.mem_map.2 ⟨row, hmem, of_decide_eq_true hc⟩⟩
    · intro h
      have hc : db.challenges.Has c := by
        rcases h with rfl | ⟨-, hc⟩
        · exact hc'
        · exact hc
      obtain ⟨row, hrow⟩ := Table.has_iff.1 hc
      exact ⟨⟨row, Table.filter_of_find? hrow⟩, [], (List.append_nil _).symm, by rintro _ ⟨⟩⟩
  · rw [hrows]
    constructor
    · rintro ⟨-, rows, heq, hall⟩
      rw [List.append_cancel_left_eq] at heq
      exact Or.inl (hrow'.symm.trans (hall row' (heq ▸ List.mem_singleton_self row')))
    · rintro (rfl | ⟨h, -⟩)
      · have hnone : db.challenges.rows.filter (fun row => row.challenge = c') = [] := by
          refine List.filter_eq_nil_iff.2 fun row hrow he => hc' ?_
          exact List.mem_map.2 ⟨row, hrow, of_decide_eq_true he⟩
        refine ⟨⟨row', ?_⟩, [row'], rfl, fun row hrow => List.mem_singleton.1 hrow ▸ hrow'⟩
        rw [List.filter_append, hnone]
        simp [hrow']
      · exact absurd h hc'

/-- The operations of a branch lead to the epoch of `p` exactly when they find in place what they leave out. -/
private theorem entered_ops_iff {s : Mining} (hne : old.challenge ≠ p.challenge) (hat : s.AtEntry old p path) :
    Entered old p s.mem.db ((path.ops old s.mem.proof p).foldl (EpochOp.perform su.config.poolId) s.mem) ↔
      path.InPlace old p s.mem := by
  have hnew := (rows_iff s.mem.db su.config.poolId p.challenge p.challenge).2 (Or.inl rfl)
  cases path with
  | watcherRpc k => exact iff_of_true ⟨rfl, rfl, rfl, rfl, rfl, rfl, hnew.1, hnew.2⟩ trivial
  | watcherWs k =>
    obtain ⟨-, rfl⟩ := hat
    exact iff_of_true ⟨rfl, rfl, rfl, rfl, rfl, rfl, hnew.1, hnew.2⟩ trivial
  | mainRpc =>
    obtain ⟨-, hold⟩ := hat
    have hrows := rows_iff s.mem.db su.config.poolId p.challenge s.mem.proof.challenge
    rw [hold] at hrows
    constructor
    · intro h
      have hin := hrows.1 ⟨hold ▸ h.row, hold ▸ h.others⟩
      exact ⟨h.lastChallenge, hin.resolve_left hne⟩
    · rintro ⟨hlast, hin⟩
      obtain ⟨hrow, hothers⟩ := hrows.2 (Or.inr hin)
      rw [← hold] at hrow hothers
      exact ⟨rfl, hlast, rfl, rfl, rfl, rfl, hrow, hothers⟩
  | mainWs =>
    obtain ⟨-, rfl, -⟩ := hat
    exact ⟨fun h => h.lastChallenge, fun hlast => ⟨rfl, hlast, rfl, rfl, rfl, rfl, hnew.1, hnew.2⟩⟩

/-- Every branch, run alone with a healthy database, comes out in one state, which is that of the new epoch for the
branches of the watcher always and for those of the main loop when what they do not write is in place. -/
theorem entered_iff {s : Mining} (hne : old.challenge ≠ p.challenge) (hat : s.AtEntry old p path) :
    ∃ s', (∀ u, (∃ n, run (step su) s (path.actions p n) = some u) ↔ u = s') ∧
      (Entered old p s.mem.db s'.mem ↔ path.InPlace old p s.mem) := by
  obtain ⟨s₁, hreads, hmem, hops⟩ := entering?_reads su hne hat
  obtain ⟨s', hs', hleaves⟩ := leaves_iff su hops
  refine ⟨s', fun u => ?_, ?_⟩
  · rw [← hleaves]
    refine exists_congr fun n => ?_
    rw [EntryPath.actions, run_append]
    constructor
    · rintro ⟨t, ht, h⟩
      cases hreads.symm.trans ht
      exact h
    · intro h
      exact ⟨s₁, hreads, h⟩
  · rw [hs', hmem]
    exact entered_ops_iff su hne hat

/-- The proofs of two epochs. -/
def exampleOld : Proof := ⟨filled 1, 0⟩

def exampleNew : Proof := ⟨filled 2, 60⟩

/-- A solution is snapshotted, and its transaction is sent. -/
def sentRound : List Action :=
  exampleWorld ++ accept 0 (exampleBest 1 1) ++ List.replicate 60 .tick ++ takeSnapshot ++ sendTx

theorem entered_example :
    ∃ s s', run (step exampleMiningSetup) exampleStart (sentRound ++ [.watcher 0 .go]) = some s ∧
      (∃ n, run (step exampleMiningSetup) s ((EntryPath.watcherRpc 0).actions exampleNew n) = some s') ∧
      Entered exampleOld exampleNew s.mem.db s'.mem := by
  obtain ⟨s, h, hw, hproof⟩ : ∃ s, run (step exampleMiningSetup) exampleStart (sentRound ++ [.watcher 0 .go]) = some s ∧
      s.watchers[0]? = some ⟨0, exampleOld, false, .readProof⟩ ∧ s.mem.proof = exampleOld :=
    exists_of_run (by decide +kernel)
  have hat : s.AtEntry exampleOld exampleNew (.watcherRpc 0) := ⟨⟨_, hw, rfl, rfl⟩, congrArg Proof.challenge hproof⟩
  obtain ⟨s', hruns, hentered⟩ := entered_iff exampleMiningSetup (by decide) hat
  exact ⟨s, s', h, (hruns s').2 rfl, hentered.2 trivial⟩

/-- The transaction is seen finalised before the watcher has looked, and the main loop enters the epoch: the last
challenge stays what it was, and with a proof from the RPC node the new challenge gets no row. -/
theorem main_branches_differ :
    (∃ s s', run (step exampleMiningSetup) exampleStart (sentRound ++ seeFinalized ⟨0, 0⟩) = some s ∧
      s.AtEntry exampleOld exampleNew .mainRpc ∧
      run (step exampleMiningSetup) s (EntryPath.mainRpc.actions exampleNew 6) = some s' ∧
      s'.mem.lastChallenge = filled 0 ∧ s'.mem.db.challenges.rows.map (·.challenge) = [filled 1] ∧
      ¬ Entered exampleOld exampleNew s.mem.db s'.mem) ∧
    ∃ s s', run (step exampleMiningSetup) exampleStart
        (sentRound ++ seeFinalized ⟨0, 0⟩ ++ [.notify exampleNew, .track]) = some s ∧
      s.AtEntry exampleOld exampleNew .mainWs ∧
      run (step exampleMiningSetup) s (EntryPath.mainWs.actions exampleNew 5) = some s' ∧
      s'.mem.lastChallenge = filled 0 ∧ s'.mem.db.challenges.rows.map (·.challenge) = [filled 2] ∧
      ¬ Entered exampleOld exampleNew s.mem.db s'.mem := by
  have hdiffers : ∀ {db : Database} {m : EpochMemory}, m.lastChallenge = filled 0 →
      ¬ Entered exampleOld exampleNew db m := by
    intro db m hlast h
    exact absurd (hlast.symm.trans h.lastChallenge) (by decide)
  constructor
  · obtain ⟨s, h, hpc, hproof, s', hs', hlast, hrows⟩ : ∃ s,
        run (step exampleMiningSetup) exampleStart (sentRound ++ seeFinalized ⟨0, 0⟩) = some s ∧
          s.main.readsProof? = some exampleOld ∧ s.mem.proof = exampleOld ∧
            ∃ s' ∈ run (step exampleMiningSetup) s (EntryPath.mainRpc.actions exampleNew 6),
              s'.mem.lastChallenge = filled 0 ∧ s'.mem.db.challenges.rows.map (·.challenge) = [filled 1] :=
      exists_of_run (by decide +kernel)
    exact ⟨s, s', h, ⟨hpc, congrArg Proof.challenge hproof⟩, hs', hlast, hrows, hdiffers hlast⟩
  · obtain ⟨s, h, hpc, hproof, hepoch, s', hs', hlast, hrows⟩ : ∃ s,
        run (step exampleMiningSetup) exampleStart
            (sentRound ++ seeFinalized ⟨0, 0⟩ ++ [.notify exampleNew, .track]) = some s ∧
          s.main.readsProof? = some exampleOld ∧ s.mem.proof = exampleNew ∧
            s.mem.epochHashes.challenge ≠ exampleNew.challenge ∧
            ∃ s' ∈ run (step exampleMiningSetup) s (EntryPath.mainWs.actions exampleNew 5),
              s'.mem.lastChallenge = filled 0 ∧ s'.mem.db.challenges.rows.map (·.challenge) = [filled 2] :=
      exists_of_run (by decide +kernel)
    exact ⟨s, s', h, ⟨hpc, hproof, hepoch⟩, hs', hlast, hrows, hdiffers hlast⟩

end Mining

end BitzPool
