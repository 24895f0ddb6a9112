import BitzPool.Lib.Run
import BitzPool.Payout
import BitzPool.Steps

/-!
# The submission that a challenge is credited to

At the end of a payout the submission of the challenge is set: to the latest row of the submissions table with the best
nonce, of whatever challenge.  The rows of the message have been inserted just before, but only those of connections that
are still there.  `credited_iff` says exactly when the row that is found is the winning submission's: by the last entry
with the best nonce whose connection is there, or, when there is none, by what the table had before.
-/

namespace BitzPool

open Transition Split

/-! ### Rows -/

/-- The row of the submissions table with an id. -/
def Database.submission? (db : Database) (id : ℕ) : Option InsertSubmission :=
  if id = 0 then none else db.submissions[id - 1]?

/-- The latest row with a nonce. -/
def Database.latest? (db : Database) (nonce : UInt64) : Option InsertSubmission :=
  db.submissions.reverse.find? fun r => r.nonce = nonce

theorem getSubmissionIdWithNonce_ok {o : CallOutcome} {nonce : UInt64} {db : Database} {id : ℕ}
    (h : getSubmissionIdWithNonce o nonce db = .ok id) : ∃ r, db.latest? nonce = some r ∧ db.submission? id = some r := by
  obtain ⟨i, hi, rfl⟩ := Option.map_eq_some_iff.1 (query_ok h)
  obtain ⟨hlt, hp, hnot⟩ := List.findIdx?_eq_some_iff_getElem.1 hi
  have hlen : i < db.submissions.length := by simpa using hlt
  refine ⟨db.submissions.reverse[i], ?_, ?_⟩
  · rw [Database.latest?, List.find?_eq_some_iff_getElem]
    exact ⟨hp, i, hlt, rfl, fun j hj => by simpa using hnot j hj⟩
  · have hne : db.submissions.length - i ≠ 0 := by omega
    rw [Database.submission?, if_neg hne, List.getElem_reverse]
    have hidx : db.submissions.length - i - 1 = db.submissions.length - 1 - i := by omega
    rw [hidx]
    exact List.getElem?_eq_getElem (by omega)

/-- The row of a submission of the message. -/
def MessageInternalMineSuccess.row (msg : MessageInternalMineSuccess) (sub : InternalMessageSubmission) :
    InsertSubmission :=
  ⟨sub.minerId, msg.challengeId, sub.suppliedNonce, diffAsI8 sub.suppliedDiff⟩

variable {poolId : RowId} {msg : MessageInternalMineSuccess} {socks : Sockets} {rows : PayoutRows}

private theorem passes_submissions {entries : List ((_ : Uuid) × InternalMessageSubmission)} {passes : List PayoutRows}
    (h : Passes poolId msg socks entries passes) :
    (PayoutRows.concat passes).submissions =
      entries.flatMap fun e => (connectionsOf socks e.1).map fun _ => msg.row e.2 := by
  induction h with
  | nil => rfl
  | @cons e p entries passes hp _ ih =>
    obtain ⟨earned, -, rfl⟩ := submissionRows_eq_some.1 hp
    have hcons : (PayoutRows.concat (PayoutRows.concat ((connectionsOf socks e.1).map
        (connectionRows poolId msg e.2 earned)) :: passes)).submissions =
        ((connectionsOf socks e.1).map (connectionRows poolId msg e.2 earned)).flatMap PayoutRows.submissions ++
          (PayoutRows.concat passes).submissions := rfl
    rw [hcons, ih, List.flatMap_cons, List.flatMap_map]
    rw [List.map_eq_flatMap]
    rfl

/-- A payout inserts a row of an entry for each of its connections. -/
theorem payoutRows_submissions (h : payoutRows poolId msg socks = some rows) :
    rows.submissions =
      msg.submissions.entries.flatMap fun e => (connectionsOf socks e.1).map fun _ => msg.row e.2 := by
  obtain ⟨passes, hpasses, rfl⟩ := payoutRows_eq_some.1 h
  exact passes_submissions hpasses

/-- The last of a list with repetitions is a repetition of the last that is repeated at all. -/
private theorem find?_reverse_flatMap_replicate {α β : Type} (n : α → ℕ) (g : α → β) (p : β → Bool) (l : List α) :
    (l.flatMap fun a => List.replicate (n a) (g a)).reverse.find? p =
      (l.reverse.find? fun a => n a ≠ 0 ∧ p (g a) = true).map g := by
  induction l with
  | nil => rfl
  | cons a l ih =>
    rw [List.flatMap_cons, List.reverse_append, List.find?_append, ih, List.reverse_cons, List.find?_append,
      Option.map_or, List.reverse_replicate, List.find?_replicate]
    by_cases hn : n a = 0 <;> by_cases hp : p (g a) = true <;> simp [hn, hp]

/-- The entry with the best nonce that the loop comes to last, of those whose connection is there. -/
def MessageInternalMineSuccess.winner? (msg : MessageInternalMineSuccess) (socks : Sockets) :
    Option InternalMessageSubmission :=
  (msg.submissions.entries.reverse.find? fun e =>
    (connectionsOf socks e.1).length ≠ 0 ∧ (msg.row e.2).nonce = msg.bestNonce).map Sigma.snd

/-- The latest row with the best nonce after the rows of the message have been inserted. -/
private theorem latest?_append {db db' : Database} (h : payoutRows poolId msg socks = some rows)
    (hdb : db'.submissions = db.submissions ++ rows.submissions) :
    db'.latest? msg.bestNonce = ((msg.winner? socks).map msg.row).or (db.latest? msg.bestNonce) := by
  have hreplicate : rows.submissions = msg.submissions.entries.flatMap fun e =>
      List.replicate (connectionsOf socks e.1).length (msg.row e.2) := by
    simp only [payoutRows_submissions h, List.map_const']
  rw [Database.latest?, hdb, hreplicate, List.reverse_append, List.find?_append,
    find?_reverse_flatMap_replicate fun e : (_ : Uuid) × InternalMessageSubmission => (connectionsOf socks e.1).length]
  simp [MessageInternalMineSuccess.winner?, Database.latest?, Function.comp_def]

/-! ### The payout of a message -/

/-- A call of the payout, or a change of the database by another task; no other writes submissions. -/
inductive PayoutAction
  | call (o : CallOutcome)
  | others (db : Database)

def MineTask.among (x : Database × MineTask) : PayoutAction → Option (Database × MineTask)
  | .call o => MineTask.proceed x o
  | .others db => if db.submissions = x.1.submissions then some (db, x.2) else none

/-- The statement is neither the lookup of the submission nor the update of the challenge. -/
def MineStmt.plain : MineStmt → Bool
  | .getSubmissionIdWithNonce .. | .updateChallengeRewards .. => false
  | _ => true

/-- What the calls of a message come to: the rows it still has to insert, and what was looked up when there are none. -/
inductive Crediting (msg : MessageInternalMineSuccess) (rows : List InsertSubmission) (x : Database × MineTask) : Prop
  | before {todo : List MineStmt} :
      x.2.todo = todo ++ [.getSubmissionIdWithNonce msg.bestNonce msg.challenge msg.rewards] →
      (∀ stmt ∈ todo, stmt.plain = true) → x.1.submissions ++ todo.flatMap MineStmt.submissions = rows →
      Crediting msg rows x
  | found {id : ℕ} {r : InsertSubmission} :
      x.2.todo = [.updateChallengeRewards msg.challenge id msg.rewards] → x.1.submissions = rows →
      x.1.latest? msg.bestNonce = some r → x.1.submission? id = some r → Crediting msg rows x
  | done : x.2.todo = [] → Crediting msg rows x

/-- A call inserts the rows, or nothing is inserted and it is tried again, or the task panics. -/
private def Inserts (db : Database) (rows : List InsertSubmission) (x : Flow × Database) : Prop :=
  (∃ db', x = (.next [], db') ∧ db'.submissions = db.submissions ++ rows) ∨
    (∃ db', x = (.retry, db') ∧ db'.submissions = db.submissions) ∨ x = (.panic, db)

private theorem inserts_unwrapping {β : Type} (res : Except AppDatabaseError β) (db : Database) :
    Inserts db [] (unwrapping res db) := by
  cases res with
  | ok => exact Or.inl ⟨db, rfl, (List.append_nil _).symm⟩
  | error => exact Or.inr (Or.inr rfl)

private theorem inserts_retrying {β : Type} {res : Except AppDatabaseError β × Database} {db : Database}
    {rows : List InsertSubmission} (herror : ∀ e db', res = (.error e, db') → db'.submissions = db.submissions)
    (hok : ∀ b db', res = (.ok b, db') → db'.submissions = db.submissions ++ rows) :
    Inserts db rows (retrying res) := by
  obtain ⟨e | b, db'⟩ := res
  · exact Or.inr (Or.inl ⟨db', rfl, herror e db' rfl⟩)
  · exact Or.inl ⟨db', rfl, hok b db' rfl⟩

/-- A plain statement inserts its rows or is tried again. -/
private theorem exec_plain (o : CallOutcome) (db : Database) {stmt : MineStmt} (h : stmt.plain = true) :
    Inserts db stmt.submissions (stmt.exec o db) := by
  cases stmt with
  | getMinerById id => exact inserts_unwrapping _ db
  | getMinerRewardsById id => exact inserts_unwrapping _ db
  | addNewEarningsBatch batch =>
    refine inserts_retrying (fun e db' he => ?_) fun b db' he => ?_
    · rw [addNewEarningsBatch_error he]
    · rw [addNewEarningsBatch_ok he]
      exact (List.append_nil _).symm
  | updateRewards batch =>
    refine inserts_retrying (fun e db' he => ?_) fun b db' he => ?_
    · rw [(updateRewards_error he).1]
    · rcases updateRewards_ok he with ⟨-, rfl⟩ | ⟨-, hq⟩
      · exact (List.append_nil _).symm
      · rw [(updateRewardsQuery_spec hq).2.2]
        exact (List.append_nil _).symm
  | addNewSubmissionsBatch batch =>
    refine inserts_retrying (fun e db' he => ?_) fun b db' he => ?_
    · rw [addNewSubmissionsBatch_error he]
    · rw [addNewSubmissionsBatch_ok he]
      rfl
  | updatePoolRewards rewards =>
    refine inserts_retrying (fun e db' he => ?_) fun n db' he => ?_
    · rw [interact_error he]
    · rcases updatePoolRewards_ok he with ⟨-, rfl⟩ | ⟨p, p', -, -, -, rfl⟩ <;> exact (List.append_nil _).symm
  | getSubmissionIdWithNonce | updateChallengeRewards => cases h

variable {rs : List InsertSubmission} {x y : Database × MineTask}

private theorem Crediting.call (hx : Crediting msg rs x) {o : CallOutcome} (h : MineTask.proceed x o = some y) :
    Crediting msg rs y := by
  obtain ⟨db, ⟨todo, dead⟩⟩ := x
  replace h : MineTask.call o db ⟨todo, dead⟩ = some y := h
  cases hx with
  | @before todo' htodo hplain hrows =>
    replace htodo : todo = todo' ++ [.getSubmissionIdWithNonce msg.bestNonce msg.challenge msg.rewards] := htodo
    cases dead with
    | true =>
      rw [htodo] at h
      cases todo' <;> cases h
    | false =>
      cases todo' with
      | nil =>
        replace hrows : db.submissions ++ [] = rs := hrows
        rw [List.append_nil] at hrows
        rw [htodo] at h
        rcases he : BitzPool.getSubmissionIdWithNonce o msg.bestNonce db with e | id
        · simp only [List.nil_append, MineTask.call, MineStmt.exec, he] at h
          cases h
          exact .done rfl
        · simp only [List.nil_append, MineTask.call, MineStmt.exec, he] at h
          cases h
          obtain ⟨r, hlatest, hid⟩ := getSubmissionIdWithNonce_ok he
          exact .found rfl hrows hlatest hid
      | cons stmt todo' =>
        rw [htodo] at h
        simp only [List.cons_append, MineTask.call] at h
        rcases exec_plain o db (hplain stmt List.mem_cons_self) with
          ⟨db', he, hdb⟩ | ⟨db', he, hdb⟩ | he
        · rw [he] at h
          cases h
          refine .before rfl (fun s hs => hplain s (List.mem_cons_of_mem _ hs)) ?_
          rw [← hrows, hdb, List.flatMap_cons, List.append_assoc]
        · rw [he] at h
          cases h
          refine .before ?_ hplain ?_
          · rfl
          · rw [← hrows, hdb]
        · rw [he] at h
          cases h
          refine .before ?_ hplain hrows
          rfl
  | found htodo =>
    replace htodo : todo = _ := htodo
    rw [htodo] at h
    cases dead with
    | true => cases h
    | false =>
      cases h
      exact .done rfl
  | done htodo =>
    replace htodo : todo = [] := htodo
    rw [htodo] at h
    cases h

theorem Crediting.step (hx : Crediting msg rs x) {a : PayoutAction} (h : MineTask.among x a = some y) :
    Crediting msg rs y := by
  cases a with
  | call o => exact hx.call h
  | others db =>
    simp only [MineTask.among] at h
    split at h
    · next hsame =>
      cases h
      cases hx with
      | before htodo hplain hrows => exact .before htodo hplain (hsame ▸ hrows)
      | @found id r htodo hrows hlatest hid =>
        refine .found (r := r) htodo (hsame ▸ hrows) ?_ ?_
        · show db.latest? msg.bestNonce = some r
          rw [Database.latest?, hsame]
          exact hlatest
        · show db.submission? id = some r
          rw [Database.submission?, hsame]
          exact hid
      | done htodo => exact .done htodo
    · cases h

private theorem statements_crediting (db : Database) :
    Crediting msg (db.submissions ++ rows.submissions) (db, ⟨statements msg rows, false⟩) := by
  have hlast : ∃ todo, statements msg rows =
      todo ++ [.getSubmissionIdWithNonce msg.bestNonce msg.challenge msg.rewards] ∧ ∀ stmt ∈ todo, stmt.plain = true := by
    refine ⟨_, (List.append_assoc _ [MineStmt.updatePoolRewards msg.rewards] _).symm, fun stmt hstmt => ?_⟩
    simp only [List.mem_append, List.mem_flatMap, List.mem_map, List.mem_cons, List.not_mem_nil, or_false] at hstmt
    rcases hstmt with (((⟨_, -, rfl | rfl⟩ | ⟨batch, -, rfl⟩) | ⟨batch, -, rfl⟩) | ⟨batch, -, rfl⟩) | rfl <;> rfl
  obtain ⟨todo, htodo, hplain⟩ := hlast
  have hrows : todo.flatMap MineStmt.submissions = rows.submissions := by
    rw [← statements_submissions msg rows, htodo, List.flatMap_append]
    exact (List.append_nil _).symm
  exact .before htodo hplain (by rw [hrows])

/-! ### The row that is found -/

/-- The row is of the challenge of the message, with the nonce and the difficulty of the best solution. -/
structure InsertSubmission.WinsFor (r : InsertSubmission) (msg : MessageInternalMineSuccess) : Prop where
  challengeId : r.challengeId = msg.challengeId
  nonce : r.nonce = msg.bestNonce
  difficulty : r.difficulty = diffAsI8 msg.difficulty

/-- The last entry with the best nonce whose connection is there has the best difficulty.  When there is none, the latest
row that the table had with the best nonce, if any, was of the challenge and the best difficulty already. -/
def CreditsOwn (msg : MessageInternalMineSuccess) (socks : Sockets) (db : Database) : Prop :=
  match msg.winner? socks with
  | some sub => diffAsI8 sub.suppliedDiff = diffAsI8 msg.difficulty
  | none => ∀ r ∈ db.latest? msg.bestNonce, r.challengeId = msg.challengeId ∧ r.difficulty = diffAsI8 msg.difficulty

instance (msg : MessageInternalMineSuccess) (socks : Sockets) (db : Database) : Decidable (CreditsOwn msg socks db) := by
  unfold CreditsOwn
  split <;> infer_instance

private theorem latest?_nonce {db : Database} {nonce : UInt64} {r : InsertSubmission} (h : db.latest? nonce = some r) :
    r.nonce = nonce := by
  simpa using List.find?_some h

private theorem winner?_nonce {sub : InternalMessageSubmission} (h : msg.winner? socks = some sub) :
    (msg.row sub).nonce = msg.bestNonce := by
  obtain ⟨e, he, rfl⟩ := Option.map_eq_some_iff.1 h
  have hfound := List.find?_some he
  rw [decide_eq_true_eq] at hfound
  exact hfound.2

private theorem winsFor_iff {db db' : Database} {r : InsertSubmission} (h : payoutRows poolId msg socks = some rows)
    (hdb : db'.submissions = db.submissions ++ rows.submissions) (hr : db'.latest? msg.bestNonce = some r) :
    r.WinsFor msg ↔ CreditsOwn msg socks db := by
  rw [latest?_append h hdb] at hr
  unfold CreditsOwn
  split
  · next sub hsub =>
    rw [hsub] at hr
    cases hr
    constructor
    · intro hwins
      exact hwins.difficulty
    · intro hdiff
      exact ⟨rfl, winner?_nonce hsub, hdiff⟩
  · next hnone =>
    rw [hnone] at hr
    have hr : db.latest? msg.bestNonce = some r := hr
    constructor
    · intro hwins r' hr'
      cases hr.symm.trans hr'
      exact ⟨hwins.challengeId, hwins.difficulty⟩
    · intro hall
      obtain ⟨hchallenge, hdiff⟩ := hall r hr
      exact ⟨hchallenge, latest?_nonce hr, hdiff⟩

private theorem idle_step {a : PayoutAction} (hx : x.2.todo = []) (h : MineTask.among x a = some y) :
    y.2.todo = [] := by
  obtain ⟨db, ⟨todo, dead⟩⟩ := x
  cases hx
  cases a with
  | call o => cases h
  | others db' =>
    simp only [MineTask.among] at h
    split at h <;> cases h
    rfl

/-- Whatever the table had and whoever is connected: when the payout of a message is about to set the submission of the
challenge, the row is the winning submission's exactly under `CreditsOwn`. -/
theorem credited_iff {db : Database} {t : MineTask} {as : List PayoutAction}
    (hreceive : MineTask.receive poolId msg socks ⟨[], false⟩ = some t) (h : run MineTask.among (db, t) as = some x)
    {challenge : Challenge} {id : ℕ} {rewards : UInt64}
    (hset : x.2.todo.head? = some (.updateChallengeRewards challenge id rewards)) :
    (∃ r, x.1.submission? id = some r ∧ r.WinsFor msg) ↔ CreditsOwn msg socks db := by
  simp only [MineTask.receive, and_self, if_true] at hreceive
  split at hreceive
  · cases hreceive
    -- after a panic nothing is called
    have hnil : x.2.todo = [] := by
      refine run_invariant' (I := fun x : Database × MineTask => x.2.todo = []) (fun {x a y} hx hstep => ?_) rfl h
      exact idle_step hx hstep
    rw [hnil] at hset
    cases hset
  · next rows hrows =>
    cases hreceive
    have hx : Crediting msg (db.submissions ++ rows.submissions) x :=
      run_invariant' (I := Crediting msg _) (fun hx hstep => hx.step hstep) (statements_crediting db) h
    cases hx with
    | @before todo htodo hplain _ =>
      rw [htodo] at hset
      cases todo with
      | nil => cases hset
      | cons stmt todo =>
        have hstmt := hplain stmt List.mem_cons_self
        cases hset
        cases hstmt
    | @found id' r htodo hsubs hlatest hid =>
      rw [htodo] at hset
      cases hset
      rw [← winsFor_iff hrows hsubs hlatest]
      constructor
      · rintro ⟨r', hr', hwins⟩
        cases hid.symm.trans hr'
        exact hwins
      · intro hwins
        exact ⟨r, hid, hwins⟩
    | done htodo =>
      rw [htodo] at hset
      cases hset

/-! ### Examples -/

/-- A database with the challenges 1 and 2, where the first was won with the nonce 0. -/
def creditDb : Database :=
  { (addNewChallenge .executed ⟨1, filled 2⟩ (addNewChallenge .executed ⟨1, filled 1⟩ (Database.single (filled 7) 0)).2).2
    with submissions := [⟨1, 1, 0, 12⟩] }

/-- Challenge 2 is won with the nonce 0, too. -/
def creditMessage : MessageInternalMineSuccess where
  difficulty := 12
  rewards := 1000
  commissions := 50
  challengeId := 2
  challenge := filled 2
  bestNonce := 0
  totalHashpower := 80
  totalRealHashpower := 80
  submissions := AList.singleton 1 (exampleSubmission 1)

/-- What the payout has to do for it. -/
def creditTask (socks : Sockets) : MineTask := (MineTask.receive 1 creditMessage socks ⟨[], false⟩).getD ⟨[], true⟩

def winnerSocks : Sockets := AList.singleton (.v4 0 1) ⟨1, filled 7, 1, "rig"⟩

theorem credited_example :
    ∃ x, run MineTask.among (creditDb, creditTask winnerSocks) (List.replicate 7 (.call .executed)) = some x ∧
      x.2.todo.head? = some (.updateChallengeRewards (filled 2) 2 1000) ∧
      ∃ r, x.1.submission? 2 = some r ∧ r.WinsFor creditMessage := by
  obtain ⟨x, h, hset⟩ : ∃ x, run MineTask.among (creditDb, creditTask winnerSocks)
      (List.replicate 7 (.call .executed)) = some x ∧
        x.2.todo.head? = some (.updateChallengeRewards (filled 2) 2 1000) := exists_of_run (by decide +kernel)
  have hreceive : MineTask.receive 1 creditMessage winnerSocks ⟨[], false⟩ = some (creditTask winnerSocks) := by
    decide +kernel
  exact ⟨x, h, hset, (credited_iff hreceive h hset).2 (by decide +kernel)⟩

/-- The winner has disconnected: the challenge is credited to the submission that won challenge 1. -/
theorem credited_to_another :
    ∃ x, run MineTask.among (creditDb, creditTask ∅) (List.replicate 5 (.call .executed)) = some x ∧
      MineTask.receive 1 creditMessage ∅ ⟨[], false⟩ = some (creditTask ∅) ∧
      ((x.1.challenges.find? (filled 2)).bind fun c => c.submissionId) = some 1 ∧
      x.1.submission? 1 = some ⟨1, 1, 0, 12⟩ ∧ creditMessage.challengeId = 2 :=
  exists_of_run (by decide +kernel)

end BitzPool
