import BitzPool.PayoutFaults

/-!
# Completeness of a payout

The rows of a payout are pushed inside the loop over the connections that are alive when its message is processed, while
the entries to be paid were fixed a round before.  An entry is paid as often as its uuid is connected then: a miner who
has disconnected since is not paid at all.  `payout_complete_iff` says when each entry gets exactly one row of each kind,
and that the calls of the task, when none of them loses anything, put exactly these rows into the tables.
-/

namespace BitzPool

open Transition

/-- The rows of a pass pay the entry: one earnings row, one credit and one submissions row, each for the entry's
miner, with what the entry earned. -/
def PaysOnce (msg : MessageInternalMineSuccess) (sub : InternalMessageSubmission) (rows : PayoutRows) : Prop :=
  ∃ earned, earnedRewards msg sub = some earned ∧
    rows.earnings.map (fun e => (e.minerId, e.amount)) = [(sub.minerId, earned)] ∧
    rows.rewards = [⟨sub.minerId, earned⟩] ∧
    rows.submissions.map InsertSubmission.minerId = [sub.minerId]

/-- The task makes its calls to the last, with any outcomes in which no unwrapped lookup fails and no credit is lost, and
leaves the database `db'`. -/
def Finishes (todo : List MineStmt) (db db' : Database) : Prop :=
  ∃ os : List CallOutcome,
    Along MineTask.proceed (fun x o => ∀ st ∈ x.2.todo.head?, st.Spared o x.1) (db, ⟨todo, false⟩) os ∧
      run MineTask.proceed (db, ⟨todo, false⟩) os = some (db', ⟨[], false⟩)

/-- The rows of the passes are in the tables `db'`, on top of those of `db`. -/
structure Puts (passes : List PayoutRows) (db db' : Database) : Prop where
  earnings : db'.earnings = db.earnings ++ passes.flatMap PayoutRows.earnings
  submissions : db'.submissions = db.submissions ++ passes.flatMap PayoutRows.submissions
  balance : ∀ id, db'.balance id = db.balance id + batchSum (passes.flatMap PayoutRows.rewards) id

/-- The task accepts the message, its statements carry the rows of its passes and nothing else and put exactly these into
the tables, and every pass pays its entry. -/
def Complete (poolId : RowId) (msg : MessageInternalMineSuccess) (socks : Sockets) : Prop :=
  ∃ todo passes, MineTask.receive poolId msg socks ⟨[], false⟩ = some ⟨todo, false⟩ ∧
    Passes poolId msg socks msg.submissions.entries passes ∧
    List.Forall₂ (fun e rows => PaysOnce msg e.2 rows) msg.submissions.entries passes ∧
    (todo.flatMap MineStmt.earnings = passes.flatMap PayoutRows.earnings ∧
      todo.flatMap MineStmt.credits = passes.flatMap PayoutRows.rewards ∧
      todo.flatMap MineStmt.submissions = passes.flatMap PayoutRows.submissions) ∧
    ∀ db db', Finishes todo db db' → Puts passes db db'

/-- An entry is paid when neither total is zero and its uuid is connected once. -/
def EntryPayable (msg : MessageInternalMineSuccess) (socks : Sockets) (uuid : Uuid) : Prop :=
  msg.totalHashpower ≠ 0 ∧ msg.totalRealHashpower ≠ 0 ∧ (connectionsOf socks uuid).length = 1

private theorem pass_pays_iff {poolId : RowId} {msg : MessageInternalMineSuccess} {socks : Sockets} {uuid : Uuid}
    {sub : InternalMessageSubmission} :
    (∃ rows, submissionRows poolId msg socks uuid sub = some rows ∧ PaysOnce msg sub rows) ↔
      EntryPayable msg socks uuid := by
  have hne : ∀ n : UInt64, n ≠ 0 ↔ ¬ n.toNat = 0 := fun n => by rw [ne_eq, ← UInt64.toNat_inj]; rfl
  have hsome : (∃ earned, earnedRewards msg sub = some earned) ↔
      msg.totalHashpower ≠ 0 ∧ msg.totalRealHashpower ≠ 0 := by
    rw [← Option.isSome_iff_exists, hne, hne, ← not_or, ← earnedRewards_eq_none, Option.isSome_iff_ne_none]
  constructor
  · rintro ⟨rows, hrows, earned, hearned, -, hrewards, -⟩
    obtain ⟨earned', hearned', rfl⟩ := submissionRows_eq_some.1 hrows
    obtain ⟨h1, h2⟩ := hsome.1 ⟨earned, hearned⟩
    have hlen := congrArg List.length hrewards
    rw [(concat_connectionRows ..).2.1, List.length_map] at hlen
    exact ⟨h1, h2, hlen⟩
  · rintro ⟨h1, h2, hlen⟩
    obtain ⟨earned, hearned⟩ := hsome.2 ⟨h1, h2⟩
    obtain ⟨conn, hconn⟩ := List.length_eq_one_iff.1 hlen
    refine ⟨_, submissionRows_eq_some.2 ⟨earned, hearned, rfl⟩, earned, hearned, ?_⟩
    obtain ⟨he, hr, hs⟩ := concat_connectionRows poolId msg sub earned (connectionsOf socks uuid)
    rw [he, hr, hs, hconn]
    exact ⟨rfl, rfl, rfl⟩

private theorem forall₂_and {α β : Type} {P Q : α → β → Prop} {l : List α} :
    (∃ m, List.Forall₂ P l m ∧ List.Forall₂ Q l m) ↔ ∀ a ∈ l, ∃ b, P a b ∧ Q a b := by
  induction l with
  | nil => simp
  | cons a l ih =>
    rw [List.forall_mem_cons, ← ih]
    constructor
    · rintro ⟨_, hP, hQ⟩
      cases hP with
      | cons hp hP =>
        cases hQ with
        | cons hq hQ => exact ⟨⟨_, hp, hq⟩, _, hP, hQ⟩
    · rintro ⟨⟨b, hp, hq⟩, m, hP, hQ⟩
      exact ⟨b :: m, .cons hp hP, .cons hq hQ⟩

private theorem passes_pay_iff {poolId : RowId} {msg : MessageInternalMineSuccess} {socks : Sockets} :
    (∃ passes, Passes poolId msg socks msg.submissions.entries passes ∧
      List.Forall₂ (fun e rows => PaysOnce msg e.2 rows) msg.submissions.entries passes) ↔
        ∀ e ∈ msg.submissions.entries, EntryPayable msg socks e.1 := by
  unfold Passes
  rw [forall₂_and]
  simp only [pass_pays_iff]

theorem Complete.entryPayable {poolId : RowId} {msg : MessageInternalMineSuccess} {socks : Sockets}
    (h : Complete poolId msg socks) : ∀ e ∈ msg.submissions.entries, EntryPayable msg socks e.1 := by
  obtain ⟨_, passes, _, hpasses, hpays, _⟩ := h
  exact passes_pay_iff.1 ⟨passes, hpasses, hpays⟩

/-- Calls that lose nothing put the rows of their passes into the tables. -/
private theorem puts_of_finishes {poolId : RowId} {msg : MessageInternalMineSuccess} {socks : Sockets}
    {passes : List PayoutRows} (hpasses : Passes poolId msg socks msg.submissions.entries passes) {db db' : Database}
    (h : Finishes (statements msg (PayoutRows.concat passes)) db db') : Puts passes db db' := by
  obtain ⟨os, hspared, hrun⟩ := h
  have hidle : Carried db [] db.earnings db.submissions db.balance :=
    ⟨List.append_nil _, List.append_nil _, fun _ => rfl, .nil, by rintro u ⟨⟩⟩
  have hend : Carried db' [] (db.earnings ++ passes.flatMap PayoutRows.earnings)
      (db.submissions ++ passes.flatMap PayoutRows.submissions)
      fun id => db.balance id + batchSum (passes.flatMap PayoutRows.rewards) id := by
    refine run_invariant (I := fun x : Database × MineTask => Carried x.1 x.2.todo _ _ _) (fun {x o y} hx hC hxy => ?_)
      (hidle.statements (payoutRows_eq_some.2 ⟨passes, hpasses, rfl⟩)) hspared hrun
    obtain ⟨st, todo, htask, ⟨-, hdb, ht⟩ | ⟨more, -, happlied, hmore, ht⟩⟩ := MineTask.call_cases hC hxy
    · rw [hdb, ht]
      exact hx
    · rw [htask] at hx
      rw [ht]
      exact hx.apply happlied hmore
  have hearnings := hend.earnings
  have hsubmissions := hend.submissions
  rw [List.flatMap_nil, List.append_nil] at hearnings hsubmissions
  exact ⟨hearnings, hsubmissions, hend.balance⟩

/-- The payout of a message is complete exactly when every entry of its snapshot is payable at the connections of
the moment. -/
theorem payout_complete_iff (poolId : RowId) (msg : MessageInternalMineSuccess) (socks : Sockets) :
    Complete poolId msg socks ↔ ∀ e ∈ msg.submissions.entries, EntryPayable msg socks e.1 := by
  refine ⟨Complete.entryPayable, fun h => ?_⟩
  obtain ⟨passes, hpasses, hpays⟩ := passes_pay_iff.2 h
  refine ⟨statements msg (PayoutRows.concat passes), passes, ?_, hpasses, hpays, ⟨?_, ?_, ?_⟩, ?_⟩
  · simp [MineTask.receive, payoutRows_eq_some.2 ⟨passes, hpasses, rfl⟩]
  · rw [statements_earnings]
    rfl
  · rw [statements_credits]
    rfl
  · rw [statements_submissions]
    rfl
  · intro db db' hfinishes
    exact puts_of_finishes hpasses hfinishes

/-- The only submitter closed the connection before the message was processed: nothing is paid. -/
theorem payout_incomplete : ¬ Complete 1 (exampleRound.message 1000 1) ∅ := by
  intro h
  have hlen := (h.entryPayable ⟨1, exampleSubmission 1⟩ (by decide)).2.2
  exact absurd hlen (by decide)

/-- The calls for one entry, with its connection there. -/
def exampleCalls : List MineStmt :=
  ((MineTask.receive 1 (exampleRound.message 1000 1) Receiver.exampleSocks ⟨[], false⟩).getD ⟨[], true⟩).todo

example : ∃ db', Finishes exampleCalls Receiver.exampleReceiver.db db' ∧ db'.balance 1 = 950 := by
  have hrun : ∃ y, run MineTask.proceed (Receiver.exampleReceiver.db, ⟨exampleCalls, false⟩) (List.replicate 8 .executed) =
      some y ∧ y.2 = ⟨[], false⟩ ∧ y.1.balance 1 = 950 := exists_of_run (by decide +kernel)
  obtain ⟨⟨db', t⟩, h, ht, hbalance⟩ := hrun
  exact ⟨db', ⟨List.replicate 8 .executed, by decide +kernel, by rw [h, ← ht]⟩, hbalance⟩

end BitzPool
