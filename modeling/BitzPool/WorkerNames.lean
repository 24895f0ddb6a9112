import BitzPool.Connections
import BitzPool.Lib.Run
import BitzPool.Lib.Update
import BitzPool.Payout

/-!
# Worker names and the payout

The worker name of a connection goes into an earnings row as it is, and the column holds 36 characters.  A batch with
a longer name is rejected whenever it is tried, and the payout tries until it is accepted: the rewards of everybody in
the batch, and of every later challenge, wait for good.  Names from `ws_handler_v2` and `ws_handler_pubkey` fit; the
name from `ws_handler_pubkey_v3` is the client's.  So the payout of a message stalls on no insert exactly when the
names that were asked for by the connections it pays fit (`unstalled_iff`).
-/

namespace BitzPool

open Transition Split Update

/-! ### The loop around an insert -/

/-- The retry loop of a statement ends at the first call that reaches the database, whatever failed before. -/
def MineStmt.EndsWhenReached (stmt : MineStmt) : Prop :=
  ∀ db todo os, CallOutcome.executed ∉ os →
    ∃ db', run MineTask.proceed (db, ⟨stmt :: todo, false⟩) (os ++ [.executed]) = some (db', ⟨todo, false⟩)

/-- The statement inserts a batch. -/
def MineStmt.inserts : MineStmt → Bool
  | .addNewEarningsBatch _ | .addNewSubmissionsBatch _ => true
  | _ => false

/-- Every batch fits its table, and every loop around an insert ends when the database is reached. -/
structure Unstalled (todo : List MineStmt) : Prop where
  fits : ∀ stmt ∈ todo, ∀ e ∈ stmt.earnings, e.workerName.length ≤ workerNameMax
  ends : ∀ stmt ∈ todo, stmt.inserts → stmt.EndsWhenReached

/-- A loop whose calls fail without effect ends with the call that succeeds. -/
private theorem endsWhenReached_of {stmt : MineStmt}
    (hfail : ∀ o db, o ≠ .executed → stmt.exec o db = (.retry, db))
    (hok : ∀ db, ∃ db', stmt.exec .executed db = (.next [], db')) : stmt.EndsWhenReached := by
  intro db todo os hos
  induction os with
  | nil =>
    obtain ⟨db', h⟩ := hok db
    exact ⟨db', by simp [run, MineTask.proceed, MineTask.call, h]⟩
  | cons o os ih =>
    obtain ⟨db', h⟩ := ih fun h => hos (List.mem_cons_of_mem _ h)
    refine ⟨db', ?_⟩
    have hretry := hfail o db fun he => hos (he ▸ List.mem_cons_self ..)
    rw [List.cons_append, run_cons]
    exact ⟨(db, ⟨stmt :: todo, false⟩), by simp [MineTask.proceed, MineTask.call, hretry], h⟩

theorem addNewEarningsBatch_executed {batch : List InsertEarning} (hne : batch ≠ [])
    (hfits : ∀ e ∈ batch, e.workerName.length ≤ workerNameMax) (db : Database) :
    addNewEarningsBatch .executed batch db = (.ok (), { db with earnings := db.earnings ++ batch }) := by
  simp [addNewEarningsBatch, interact, expectRows, if_pos hfits, hne]

theorem earnings_endsWhenReached {batch : List InsertEarning} (hne : batch ≠ [])
    (hfits : ∀ e ∈ batch, e.workerName.length ≤ workerNameMax) :
    (MineStmt.addNewEarningsBatch batch).EndsWhenReached := by
  refine endsWhenReached_of (fun o db ho => ?_) fun db => ⟨{ db with earnings := db.earnings ++ batch }, ?_⟩
  · cases o with
    | executed => exact absurd rfl ho
    | noConnection | interactError | sqlError => rfl
  · simp only [MineStmt.exec, addNewEarningsBatch_executed hne hfits db, retrying]

theorem submissions_endsWhenReached {batch : List InsertSubmission} (hne : batch ≠ []) :
    (MineStmt.addNewSubmissionsBatch batch).EndsWhenReached := by
  refine endsWhenReached_of (fun o db ho => ?_) fun db => ⟨{ db with submissions := db.submissions ++ batch }, ?_⟩
  · cases o with
    | executed => exact absurd rfl ho
    | noConnection | interactError | sqlError => rfl
  · simp [MineStmt.exec, addNewSubmissionsBatch, interact, expectRows, retrying, hne]

/-- A batch with a name that does not fit is tried for ever. -/
theorem earnings_stalls {batch : List InsertEarning} {e : InsertEarning} (he : e ∈ batch)
    (hlong : workerNameMax < e.workerName.length) (db : Database) (todo : List MineStmt) (n : ℕ) :
    run MineTask.proceed (db, ⟨.addNewEarningsBatch batch :: todo, false⟩) (List.replicate n .executed) =
      some (db, ⟨.addNewEarningsBatch batch :: todo, false⟩) := by
  have hnot : ¬∀ e ∈ batch, e.workerName.length ≤ workerNameMax := fun h => Nat.not_lt.2 (h e he) hlong
  induction n with
  | zero => rfl
  | succ n ih =>
    rw [List.replicate_succ, run_cons]
    refine ⟨_, ?_, ih⟩
    simp only [MineTask.proceed, MineTask.call, MineStmt.exec, addNewEarningsBatch, interact, if_neg hnot, expectRows,
      retrying]

/-! ### The batches of a message -/

variable {poolId : RowId} {msg : MessageInternalMineSuccess} {socks : Sockets} {rows : PayoutRows}

theorem mem_connectionsOf {uuid : Uuid} {conn : AppClientConnection} :
    conn ∈ connectionsOf socks uuid ↔ (∃ addr, socks.lookup addr = some conn) ∧ conn.uuid = uuid := by
  simp only [connectionsOf, List.mem_filter, List.mem_map, decide_eq_true_eq]
  refine and_congr_left fun _ => ?_
  constructor
  · rintro ⟨x, hx, rfl⟩
    exact ⟨x.1, AList.mem_lookup_iff.2 hx⟩
  · rintro ⟨addr, h⟩
    exact ⟨⟨addr, conn⟩, AList.mem_lookup_iff.1 h, rfl⟩

/-- A pass carries the names of its connections. -/
private theorem workerName_pass {uuid : Uuid} {sub : InternalMessageSubmission}
    (h : submissionRows poolId msg socks uuid sub = some rows) (name : String) :
    (∃ e ∈ rows.earnings, e.workerName = name) ↔ ∃ conn ∈ connectionsOf socks uuid, conn.workerName = name := by
  obtain ⟨earned, -, rfl⟩ := submissionRows_eq_some.1 h
  simp [PayoutRows.concat, connectionRows]

private theorem workerName_passes {entries : List ((_ : Uuid) × InternalMessageSubmission)} {passes : List PayoutRows}
    (h : Passes poolId msg socks entries passes) (name : String) :
    (∃ e ∈ (PayoutRows.concat passes).earnings, e.workerName = name) ↔
      ∃ x ∈ entries, ∃ conn ∈ connectionsOf socks x.1, conn.workerName = name := by
  induction h with
  | nil => simp [PayoutRows.concat]
  | @cons x p entries passes hp _ ih =>
    have hcons : (PayoutRows.concat (p :: passes)).earnings = p.earnings ++ (PayoutRows.concat passes).earnings := rfl
    rw [hcons, List.exists_mem_cons_iff, ← ih, ← workerName_pass hp name]
    simp only [List.mem_append, or_and_right, exists_or]

/-- The names in the earnings rows are those of the connections that are paid. -/
theorem workerName_earnings (h : payoutRows poolId msg socks = some rows) (name : String) :
    (∃ e ∈ rows.earnings, e.workerName = name) ↔
      ∃ addr conn, socks.lookup addr = some conn ∧ conn.uuid ∈ msg.submissions ∧ conn.workerName = name := by
  obtain ⟨passes, hpasses, rfl⟩ := payoutRows_eq_some.1 h
  rw [workerName_passes hpasses]
  constructor
  · rintro ⟨x, hx, conn, hconn, hname⟩
    obtain ⟨⟨addr, hl⟩, huuid⟩ := mem_connectionsOf.1 hconn
    refine ⟨addr, conn, hl, ?_, hname⟩
    rw [huuid]
    exact AList.mem_keys.2 (List.mem_map.2 ⟨x, hx, rfl⟩)
  · rintro ⟨addr, conn, hl, huuid, hname⟩
    obtain ⟨sub, hsub⟩ := Option.isSome_iff_exists.1 (AList.lookup_isSome.2 huuid)
    exact ⟨⟨conn.uuid, sub⟩, AList.mem_lookup_iff.1 hsub, conn, mem_connectionsOf.2 ⟨⟨addr, hl⟩, rfl⟩, hname⟩

/-- The inserts of a message are those of its batches, none of which is empty. -/
theorem inserts_statements {stmt : MineStmt} (hmem : stmt ∈ statements msg rows) (h : stmt.inserts) :
    (∃ batch, stmt = .addNewEarningsBatch batch ∧ batch ≠ [] ∧ ∀ e ∈ batch, e ∈ rows.earnings) ∨
      ∃ batch, stmt = .addNewSubmissionsBatch batch ∧ batch ≠ [] := by
  simp only [statements, List.mem_append, List.mem_flatMap, List.mem_map, List.mem_cons, List.not_mem_nil,
    or_false] at hmem
  rcases hmem with (((⟨_, -, rfl | rfl⟩ | ⟨batch, hb, rfl⟩) | ⟨batch, -, rfl⟩) | ⟨batch, hb, rfl⟩) | rfl | rfl
  · cases h
  · cases h
  · exact Or.inl ⟨batch, rfl, ne_nil_of_mem_chunks batchSize_pos hb, fun e he => mem_of_mem_chunks hb he⟩
  · cases h
  · exact Or.inr ⟨batch, rfl, ne_nil_of_mem_chunks batchSize_pos hb⟩
  · cases h
  · cases h

/-- No insert of a message stalls exactly when the names in its earnings rows fit. -/
theorem unstalled_statements : Unstalled (statements msg rows) ↔ ∀ e ∈ rows.earnings, e.workerName.length ≤ workerNameMax := by
  have hearnings : ∀ e, e ∈ rows.earnings ↔ ∃ stmt ∈ statements msg rows, e ∈ stmt.earnings := by
    intro e
    rw [← statements_earnings msg rows, List.mem_flatMap]
  constructor
  · intro h e he
    obtain ⟨stmt, hmem, he⟩ := (hearnings e).1 he
    exact h.fits stmt hmem e he
  · refine fun h => ⟨fun stmt hmem e he => h e ((hearnings e).2 ⟨stmt, hmem, he⟩), fun stmt hmem hins => ?_⟩
    rcases inserts_statements hmem hins with ⟨batch, rfl, hne, hsub⟩ | ⟨batch, rfl, hne⟩
    · exact earnings_endsWhenReached hne fun e he => h e (hsub e he)
    · exact submissions_endsWhenReached hne

/-! ### Where connections come from -/

namespace Connections

/-- Every connection in the map is that of a request at work, under the request's address, with its worker name. -/
structure Admitted (s : Connections) : Prop where
  entered : ∀ {addr conn}, s.sockets.lookup addr = some conn →
    ∃ (k : ℕ) (r : WsRequest), s.requests[k]? = some (r, .receiving conn) ∧ r.addr = addr
  named : ∀ t ∈ s.requests, ∀ conn ∈ t.2.conn?, conn.workerName = t.1.workerName

variable {verify : Verify} {s s' : Connections} {a : Action}

theorem Admitted.requestStep (hs : s.Admitted) {k : ℕ} {r : WsRequest} {input : WsInput} {pc pc' : WsPc} {m : WsMemory}
    (hk : s.requests[k]? = some (r, pc)) (h : WsStep r ⟨s.db, s.sockets⟩ input pc m pc') :
    Admitted { s with db := m.db, sockets := m.sockets, requests := s.requests.set k (r, pc') } := by
  have hlt : k < s.requests.length := (List.getElem?_eq_some_iff.1 hk).1
  have hold : (r, pc) ∈ s.requests := List.mem_of_getElem? hk
  have hnamed : (∀ conn ∈ pc'.conn?, conn.workerName = r.workerName) →
      ∀ t ∈ s.requests.set k (r, pc'), ∀ conn ∈ t.2.conn?, conn.workerName = t.1.workerName := by
    intro hpc t ht
    rcases List.mem_or_eq_of_mem_set ht with ht | rfl
    · exact hs.named t ht
    · exact hpc
  -- the request of an entry stays where it is, unless it is the one that moves
  have hkeep : ∀ {addr conn}, s.sockets.lookup addr = some conn → (∀ conn, pc = .receiving conn → addr ≠ r.addr) →
      ∃ (j : ℕ) (r' : WsRequest), (s.requests.set k (r, pc'))[j]? = some (r', .receiving conn) ∧ r'.addr = addr := by
    intro addr conn hl hne
    obtain ⟨j, r', hj, rfl⟩ := hs.entered hl
    refine ⟨j, r', ?_, rfl⟩
    rw [List.getElem?_set_ne]
    · exact hj
    · rintro rfl
      rw [hk] at hj
      cases hj
      exact hne _ rfl rfl
  cases h with
  | check hpc hpc' =>
    refine ⟨fun hl => hkeep hl ?_, hnamed (by rw [hpc']; rintro conn ⟨⟩)⟩
    rintro conn rfl
    cases hpc
  | ping => exact ⟨fun hl => hkeep hl (by simp), hnamed (by rintro conn ⟨⟩; rfl)⟩
  | taken => exact ⟨fun hl => hkeep hl (by simp), hnamed (by rintro conn ⟨⟩)⟩
  | enter =>
    refine ⟨fun {addr conn'} hl => ?_, hnamed (hs.named _ hold)⟩
    rcases lookup_insert_cases hl with ⟨rfl, rfl⟩ | ⟨-, hl⟩
    · exact ⟨k, r, List.getElem?_set_self hlt, rfl⟩
    · exact hkeep hl (by simp)
  | close =>
    refine ⟨fun hl => ?_, hnamed (by rintro conn ⟨⟩)⟩
    obtain ⟨hne, hl⟩ := lookup_erase_cases hl
    exact hkeep hl fun _ _ => hne

theorem Admitted.step (hs : s.Admitted) (h : s.step verify a = some s') : s'.Admitted := by
  cases a with
  | tick | database => cases h; exact ⟨hs.entered, hs.named⟩
  | request r =>
    cases h
    refine ⟨fun hl => ?_, fun t ht conn hconn => ?_⟩
    · obtain ⟨k, r', hk, haddr⟩ := hs.entered hl
      exact ⟨k, r', (List.getElem?_append_left (List.getElem?_eq_some_iff.1 hk).1).trans hk, haddr⟩
    · rcases List.mem_append.1 ht with ht | ht
      · exact hs.named t ht conn hconn
      · rw [List.mem_singleton.1 ht, WsRequest.arrive_conn?] at hconn
        cases hconn
  | requestStep k input =>
    obtain ⟨r, pc, m, pc', hk, hstep, rfl⟩ := stepRequest_sound h
    exact hs.requestStep hk hstep
  | remove addr =>
    cases h
    exact ⟨fun hl => hs.entered (lookup_erase_cases hl).2, hs.named⟩

theorem start_admitted (db : Database) : (start db).Admitted where
  entered h := by cases h
  named t ht := by cases ht

/-- Whatever connections the handlers have admitted, the payout of a message stalls on none of its inserts exactly when
the worker names of the requests whose connections it pays fit their column. -/
theorem unstalled_iff (verify : Verify) (db : Database) {as : List Action}
    (h : run (step verify) (start db) as = some s') {poolId : RowId} {msg : MessageInternalMineSuccess}
    {todo : List MineStmt} (hmsg : MineTask.receive poolId msg s'.sockets ⟨[], false⟩ = some ⟨todo, false⟩) :
    Unstalled todo ↔ ∀ (k : ℕ) (r : WsRequest) (conn : AppClientConnection),
      s'.requests[k]? = some (r, .receiving conn) → s'.sockets.lookup r.addr = some conn →
      conn.uuid ∈ msg.submissions → r.workerName.length ≤ workerNameMax := by
  have hs : s'.Admitted :=
    run_invariant' (I := Admitted) (fun hs hstep => hs.step hstep) (start_admitted db) h
  obtain ⟨rows, hrows, rfl⟩ : ∃ rows, payoutRows poolId msg s'.sockets = some rows ∧ todo = statements msg rows := by
    simp only [MineTask.receive, and_self, if_true] at hmsg
    split at hmsg
    · cases hmsg
    · next rows hrows =>
      cases hmsg
      exact ⟨rows, hrows, rfl⟩
  rw [unstalled_statements]
  constructor
  · intro hfits k r conn hk hl huuid
    have hname : conn.workerName = r.workerName := hs.named _ (List.mem_of_getElem? hk) conn rfl
    obtain ⟨e, he, hname'⟩ := (workerName_earnings hrows r.workerName).2 ⟨r.addr, conn, hl, huuid, hname⟩
    rw [← hname']
    exact hfits e he
  · intro hfits e he
    obtain ⟨addr, conn, hl, huuid, hname⟩ := (workerName_earnings hrows e.workerName).1 ⟨e, he, rfl⟩
    obtain ⟨k, r, hk, rfl⟩ := hs.entered hl
    rw [← hname, hs.named _ (List.mem_of_getElem? hk) conn rfl]
    exact hfits k r conn hk hl huuid

/-! ### Examples -/

/-- A request on the third route, and its steps up to the connection with the identifier `uuid`. -/
def connect (k : ℕ) (workerName : String) (uuid : Uuid) : List Action :=
  [.request ⟨.v4 0 (.ofNat k), filled 7, 0, .pubkeyV3 workerName⟩, .requestStep k (.call .executed),
    .requestStep k (.call .executed), .requestStep k (.ping true uuid), .requestStep k .insert]

/-- The connections 1 and 2 of miner 1, the second with the given name. -/
def connectBoth (workerName : String) : List Action := connect 0 "rig" 1 ++ connect 1 workerName 2

/-- A message for one submission of each of the two connections. -/
def exampleMessage : MessageInternalMineSuccess where
  difficulty := 12
  rewards := 1000
  commissions := 50
  challengeId := 1
  challenge := filled 0
  bestNonce := 0
  totalHashpower := 160
  totalRealHashpower := 160
  submissions := (AList.singleton 1 (exampleSubmission 1)).insert 2 (exampleSubmission 1)

/-- The earnings rows of the message. -/
def exampleEarnings (workerName : String) : List InsertEarning :=
  [⟨1, 1, 1, 475, 12, workerName⟩, ⟨1, 1, 1, 475, 12, "rig"⟩]

/-- What the payout has to do for the message. -/
def exampleTodo (socks : Sockets) : List MineStmt :=
  ((MineTask.receive 1 exampleMessage socks ⟨[], false⟩).map MineTask.todo).getD []

theorem unstalled_example :
    ∃ s', run (step fun _ _ _ => true) (start (Database.single (filled 7) 0)) (connectBoth "second") = some s' ∧
      MineTask.receive 1 exampleMessage s'.sockets ⟨[], false⟩ = some ⟨exampleTodo s'.sockets, false⟩ ∧
      Unstalled (exampleTodo s'.sockets) := by
  have hrun : ∃ s', run (step fun _ _ _ => true) (start (Database.single (filled 7) 0)) (connectBoth "second") =
      some s' ∧ (MineTask.receive 1 exampleMessage s'.sockets ⟨[], false⟩ = some ⟨exampleTodo s'.sockets, false⟩ ∧
        ∀ t ∈ s'.requests, t.1.workerName.length ≤ workerNameMax) := exists_of_run (by decide +kernel)
  obtain ⟨s', h, hmsg, hnames⟩ := hrun
  exact ⟨s', h, hmsg, (unstalled_iff _ _ h hmsg).2 fun k r conn hk _ _ => hnames _ (List.mem_of_getElem? hk)⟩

/-- A name of `n` characters. -/
def nameOf (n : ℕ) : String := String.ofList (List.replicate n 'a')

theorem length_nameOf (n : ℕ) : (nameOf n).length = n := by
  rw [nameOf, String.length_ofList, List.length_replicate]

/-- A name of one character more than its column holds. -/
def longName : String := nameOf 37

/-- The batch with the long name is tried for ever, with the row of the other connection in it. -/
theorem stalled :
    ∃ s', run (step fun _ _ _ => true) (start (Database.single (filled 7) 0)) (connectBoth longName) = some s' ∧
      MineTask.receive 1 exampleMessage s'.sockets ⟨[], false⟩ = some ⟨exampleTodo s'.sockets, false⟩ ∧
      .addNewEarningsBatch (exampleEarnings longName) ∈ exampleTodo s'.sockets ∧
      ¬Unstalled (exampleTodo s'.sockets) ∧
      ∀ db rest n, run MineTask.proceed (db, ⟨.addNewEarningsBatch (exampleEarnings longName) :: rest, false⟩)
        (List.replicate n .executed) = some (db, ⟨.addNewEarningsBatch (exampleEarnings longName) :: rest, false⟩) := by
  have hrun : ∃ s', run (step fun _ _ _ => true) (start (Database.single (filled 7) 0)) (connectBoth longName) =
      some s' ∧ (MineTask.receive 1 exampleMessage s'.sockets ⟨[], false⟩ = some ⟨exampleTodo s'.sockets, false⟩ ∧
        .addNewEarningsBatch (exampleEarnings longName) ∈ exampleTodo s'.sockets) := exists_of_run (by decide +kernel)
  obtain ⟨s', h, hmsg, hmem⟩ := hrun
  have hrow : ∀ name, ∃ e ∈ exampleEarnings name, e.workerName = name := fun name => ⟨_, List.mem_cons_self .., rfl⟩
  obtain ⟨e, he, hname⟩ := hrow longName
  have hlong : workerNameMax < e.workerName.length := by
    rw [hname, longName, length_nameOf]
    decide
  have hnot : ¬Unstalled (exampleTodo s'.sockets) := fun hs => Nat.not_lt.2 (hs.fits _ hmem e he) hlong
  exact ⟨s', h, hmsg, hmem, hnot, earnings_stalls he hlong⟩

end Connections

end BitzPool
