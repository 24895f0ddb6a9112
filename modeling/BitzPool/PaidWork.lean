import BitzPool.ServerBooks

/-!
# Earnings are worked for

Every row of `earnings` pays an entry of a snapshot, whose round was mined by a transaction that is finalised; the entry is
a solution that came over an authenticated connection and was valid for the challenge that the server's proof had when it
was looked at; and no entry of a round is paid twice (`paid_for_work`).  The rows of a message have distinct entries since
connections have distinct uuids, those of different messages have different rounds (`Billed.messages`).
-/

namespace BitzPool

open Keyed Transition

/-! ### The rows of a message -/

/-- The row pays the entry of the message what it has earned. -/
structure InsertEarning.Pays (row : InsertEarning) (msg : MessageInternalMineSuccess)
    (e : (_ : Uuid) × InternalMessageSubmission) : Prop where
  entry : e ∈ msg.submissions.entries
  minerId : row.minerId = e.2.minerId
  difficulty : row.difficulty = diffAsI8 e.2.suppliedDiff
  amount : earnedRewards msg e.2 = some row.amount

private theorem passes_pay {poolId : RowId} {msg : MessageInternalMineSuccess} {socks : Sockets} (hu : UuidsUnique socks)
    {entries : List ((_ : Uuid) × InternalMessageSubmission)} (hsub : ∀ e ∈ entries, e ∈ msg.submissions.entries)
    {passes : List PayoutRows} (h : Passes poolId msg socks entries passes) :
    ∃ es, es.Sublist entries ∧ List.Forall₂ (fun row e => row.Pays msg e) (PayoutRows.concat passes).earnings es := by
  induction h with
  | nil => exact ⟨[], .slnil, .nil⟩
  | @cons e p entries passes hp _ ih =>
    obtain ⟨es, hes, hpays⟩ := ih fun e' he' => hsub e' (List.mem_cons_of_mem _ he')
    obtain ⟨earned, hearned, rfl⟩ := submissionRows_eq_some.1 hp
    have hconcat : ∀ p : PayoutRows, (PayoutRows.concat (p :: passes)).earnings =
        p.earnings ++ (PayoutRows.concat passes).earnings := fun p => rfl
    rw [hconcat]
    -- at most one connection has the uuid of the entry
    rcases hconns : connectionsOf socks e.1 with _ | ⟨conn, conns⟩
    · exact ⟨es, hes.cons _, hpays⟩
    · have hone : conns = [] := by
        have hlen := connectionsOf_length_le hu e.1
        rw [hconns, List.length_cons] at hlen
        exact List.eq_nil_of_length_eq_zero (by omega)
      subst hone
      exact ⟨e :: es, hes.cons_cons _, .cons ⟨hsub e List.mem_cons_self, rfl, rfl, hearned⟩ hpays⟩

/-- Every earnings row of a payout pays one entry, and no two rows the same. -/
theorem payoutRows_pay {poolId : RowId} {msg : MessageInternalMineSuccess} {socks : Sockets} {rows : PayoutRows}
    (hu : UuidsUnique socks) (h : payoutRows poolId msg socks = some rows) :
    ∃ es, List.Forall₂ (fun row e => InsertEarning.Pays row msg e) rows.earnings es ∧ (es.map Sigma.fst).Nodup := by
  obtain ⟨passes, hpasses, rfl⟩ := payoutRows_eq_some.1 h
  obtain ⟨es, hes, hpays⟩ := passes_pay hu (fun e he => he) hpasses
  exact ⟨es, hpays, (hes.map Sigma.fst).nodup msg.submissions.nodupKeys⟩

/-! ### Who writes earnings -/

theorem updateRewards_earnings {o : CallOutcome} {batch : List UpdateReward} {db db' : Database}
    (h : updateRewards o batch db = (.ok (), db')) : db'.earnings = db.earnings := by
  rcases updateRewards_ok h with ⟨-, rfl⟩ | ⟨-, hq⟩
  · rfl
  · rw [(updateRewardsQuery_spec hq).2.2]

theorem updatePoolRewards_earnings {o : CallOutcome} {rewards : UInt64} {db db' : Database} {n : ℕ}
    (h : updatePoolRewards o rewards db = (.ok n, db')) : db'.earnings = db.earnings := by
  rcases updatePoolRewards_ok h with ⟨-, rfl⟩ | ⟨p, p', -, -, -, rfl⟩ <;> rfl

theorem ClaimStep.earnings {now : ℕ} {m m' : ClaimMemory} {i : ClaimInput} {pc pc' : ClaimPc}
    (h : ClaimStep now m i pc m' pc') : m'.db.earnings = m.db.earnings := by
  cases h with
  | decrease hquery =>
    unfold decreaseQuery at hquery
    split at hquery
    · cases hquery
      rfl
    · split at hquery <;> cases hquery
      rfl
  | addTxn hledger => exact hledger.earnings
  | _ => rfl

theorem PayoutStep.earnings {cfg : Config} {r : Round} {db db' : Database} {i : PayoutInput} {pc pc' : PayoutPc}
    {msgs : List MessageInternalMineSuccess} (h : PayoutStep cfg r db i pc db' pc' msgs) : db'.earnings = db.earnings := by
  cases h with
  | other hledger => exact hledger.earnings
  | credit hcredit => exact updateRewards_earnings hcredit
  | send => rfl

/-- A call writes the earnings that it takes from what is to be done, or none. -/
theorem MineStep.earnings_append {o : CallOutcome} {db db' : Database} {t t' : MineTask} (h : MineStep o db t db' t') :
    db'.earnings ++ t'.todo.flatMap MineStmt.earnings = db.earnings ++ t.todo.flatMap MineStmt.earnings := by
  cases h with
  | stuck => rfl
  | @other s todo more db' hl hs hmore =>
    have hnil : more.flatMap MineStmt.earnings = [] := List.flatMap_eq_nil_iff.2 fun st hst => (hmore st hst).1
    rw [hl.earnings, List.flatMap_append, hnil, List.flatMap_cons, hs.1]
  | earnings => simp [MineStmt.earnings]
  | credit hcredit =>
    rw [updateRewards_earnings hcredit]
    simp [MineStmt.earnings]
  | pool hpool =>
    rw [updatePoolRewards_earnings hpool]
    simp [MineStmt.earnings]

namespace Treasury

/-- The rows of `earnings`, with those that are to be written. -/
def allEarnings (t : Treasury) : List InsertEarning := t.db.earnings ++ t.mine.todo.flatMap MineStmt.earnings

variable {su : Setup} {s s' : Treasury} {a : Action}

/-- There are more of them only when a message is received. -/
theorem Step.allEarnings (h : Step su s a s') (ha : ∀ socks, a ≠ .receive socks) : s'.allEarnings = s.allEarnings := by
  have same : ∀ {db : Database}, db.earnings = s.db.earnings →
      db.earnings ++ s.mine.todo.flatMap MineStmt.earnings = s.allEarnings := fun he => by rw [he]; rfl
  cases h with
  | claim hstep => exact same hstep.earnings
  | payout _ hstep => exact same hstep.earnings
  | receive => exact absurd rfl (ha _)
  | mineCall hstep => exact hstep.earnings_append
  | @signup o id pubkey =>
    obtain ⟨-, -, -, -, hearn, -⟩ := signupUserTransaction_spec o id pubkey s.db
    exact same hearn
  | _ => rfl

/-- Rows of `earnings` stay. -/
theorem Step.earnings_kept (h : Step su s a s') : s.db.earnings <+: s'.db.earnings := by
  have same : ∀ {db : Database}, db.earnings = s.db.earnings → s.db.earnings <+: db.earnings :=
    fun he => Update.prefix_of_eq he.symm
  cases h with
  | claim hstep => exact same hstep.earnings
  | payout _ hstep => exact same hstep.earnings
  | mineCall hstep =>
    generalize s.mine = mine at hstep
    cases hstep with
    | stuck => exact List.prefix_rfl
    | other hledger => exact same hledger.earnings
    | earnings => exact List.prefix_append _ _
    | credit hcredit => exact same (updateRewards_earnings hcredit)
    | pool hpool => exact same (updatePoolRewards_earnings hpool)
  | @signup o id pubkey =>
    obtain ⟨-, -, -, -, hearn, -⟩ := signupUserTransaction_spec o id pubkey s.db
    exact same hearn
  | _ => exact List.prefix_rfl

theorem Idles.allEarnings {t : Treasury} (h : s.Idles t) : t.allEarnings = s.allEarnings := by
  obtain ⟨now, db, hledger, rfl⟩ := h.exists
  rw [Treasury.allEarnings, hledger.earnings]
  rfl

end Treasury

/-! ### Who has worked -/

/-- A handler finds its solution valid for the challenge of the proof. -/
theorem HandlerStep.validated? {dx : Drillx} {msg : BestSolution} {m m' : EpochMemory} {pc pc' : HandlerPc}
    (h : HandlerStep dx msg m pc m' pc') {c : Challenge} (hc : pc'.validated? = some c) :
    pc.validated? = some c ∨ ∃ minerId, pc = .proof minerId ∧ m.proof.challenge = c ∧ dx.isValid msg.solution c ∧
      minDiff ≤ dx.difficulty msg.solution := by
  cases h with
  | @proof minerId hvalid hdiff =>
    cases hc
    exact Or.inr ⟨minerId, rfl, rfl, hvalid, hdiff⟩
  | read => exact Or.inl hc
  | late | inTime | refuse | ranges | socket | write => cases hc

namespace Server

/-- The solution that a handler is about to validate, with the challenge of the proof. -/
def checked? (s : Server) : Action → Option (BestSolution × Challenge)
  | .serving (.assigning (.mining (.handler k))) =>
    match s.mining.handlers[k]? with
    | some (msg, .proof _) => some (msg, s.mining.mem.proof.challenge)
    | _ => none
  | _ => none

/-- What became of the connections, and the solutions that were valid for the challenge of the proof when they were
looked at, with the challenge. -/
structure Record where
  lives : Serving.Lives
  valid : List (BestSolution × Challenge)

def Record.empty : Record := ⟨⟨[], [], [], []⟩, []⟩

def watchWork (dx : Drillx) (s : Server) (a : Action) (w : Record) : Record where
  lives := s.watchLives a w.lives
  valid := w.valid ++ ((s.checked? a).filter fun p => dx.isValid p.1.solution p.2 ∧ minDiff ≤ dx.difficulty p.1.solution).toList

/-- The entry is a solution that was valid, and came over an authenticated connection. -/
structure Record.Worked (dx : Drillx) (w : Record) (uuid : Uuid) (sub : InternalMessageSubmission) : Prop where
  author : ∃ e ∈ w.lives.authenticated, e.2.uuid = uuid
  solution : ∃ p ∈ w.valid, p.1.uuid = uuid ∧ sub = p.1.submission dx sub.minerId

/-- What is noted was valid. -/
def Record.Valid (dx : Drillx) (w : Record) : Prop :=
  ∀ p ∈ w.valid, dx.isValid p.1.solution p.2 ∧ minDiff ≤ dx.difficulty p.1.solution

variable {su : ServerSetup} {s s' : Server} {a : Action} {w : Record} {dx : Drillx}

theorem mem_watchWork {p : BestSolution × Challenge} (h : p ∈ w.valid) : p ∈ (s.watchWork dx a w).valid :=
  List.mem_append_left _ h

theorem mem_watched_lives {e : SocketAddr × AppClientConnection} (h : e ∈ w.lives.authenticated) :
    e ∈ (s.watchWork dx a w).lives.authenticated := by
  cases a with
  | serving a => exact Serving.mem_watchLives h
  | _ => exact h

theorem Record.Worked.watch {uuid : Uuid} {sub : InternalMessageSubmission} (h : w.Worked dx uuid sub) :
    (s.watchWork dx a w).Worked dx uuid sub where
  author := by
    obtain ⟨e, he, hu⟩ := h.author
    exact ⟨e, mem_watched_lives he, hu⟩
  solution := by
    obtain ⟨p, hp, hsol⟩ := h.solution
    exact ⟨p, mem_watchWork hp, hsol⟩

theorem Record.Valid.watch (h : w.Valid dx) : (s.watchWork dx a w).Valid dx := by
  intro p hp
  rcases List.mem_append.1 hp with hp | hp
  · exact h p hp
  · have hfilter := Option.mem_toList.1 hp
    exact of_decide_eq_true (Option.filter_eq_some_iff.1 hfilter).2

/-- The invariant: solutions come over authenticated connections, and those that handlers write, and so all entries, were
valid. -/
structure Works (dx : Drillx) (x : Server × Record) : Prop where
  known : Serving.Known (x.1.serving, x.2.lives)
  valid : x.2.Valid dx
  channel : ∀ msg, .bestSolution msg ∈ x.1.serving.channel → ∃ e ∈ x.2.lives.authenticated, e.2.uuid = msg.uuid
  handlers : ∀ t ∈ x.1.mining.handlers, (∃ e ∈ x.2.lives.authenticated, e.2.uuid = t.1.uuid) ∧
    ∀ c, t.2.validated? = some c → (t.1, c) ∈ x.2.valid
  entries : x.1.mining.Entries (x.2.Worked dx)

/-- The solutions in the channel after a step were there before, or came over a connection that is received from. -/
theorem solution_step (h : step su s a = some s') {msg : BestSolution} (hmsg : .bestSolution msg ∈ s'.serving.channel) :
    .bestSolution msg ∈ s.serving.channel ∨
      ∃ t ∈ s.serving.requests, ∃ conn, t.2.conn? = some conn ∧ msg.uuid = conn.uuid := by
  rcases serving_cases h with ⟨b, -, hb⟩ | ⟨-, db, he⟩
  · exact (Serving.step_sound hb).channel hmsg
  · rw [he] at hmsg
    exact Or.inl hmsg

private theorem Works.handler (hx : Works su.mining.drillx (s, w)) (h : step su s a = some s')
    {t : BestSolution × HandlerPc} (ht : t ∈ s'.mining.handlers) :
    (∃ e ∈ w.lives.authenticated, e.2.uuid = t.1.uuid) ∧
      ∀ c, t.2.validated? = some c → (t.1, c) ∈ (s.watchWork su.mining.drillx a w).valid := by
  have old : ∀ {t}, t ∈ s.mining.handlers → (∃ e ∈ w.lives.authenticated, e.2.uuid = t.1.uuid) ∧
      ∀ c, t.2.validated? = some c → (t.1, c) ∈ (s.watchWork su.mining.drillx a w).valid :=
    fun {t} ht => ⟨(hx.handlers t ht).1, fun c hc => mem_watchWork ((hx.handlers t ht).2 c hc)⟩
  rcases mining_cases h with he | ⟨b, hb, hmessage, hhandler⟩
  · rw [he] at ht
    exact old ht
  · rcases (Mining.step_sound hb).mem_handlers ht with ht | ⟨msg, rfl, rfl⟩ | ⟨k, pc, rfl, hk, hstep⟩
    · exact old ht
    · have hchannel : .bestSolution msg ∈ s.serving.channel := by
        have hdelivered := hmessage msg rfl
        unfold delivered? at hdelivered
        split at hdelivered
        · split at hdelivered <;> cases hdelivered
          next hch =>
            rw [hch]
            exact List.mem_cons_self
        · cases hdelivered
      exact ⟨hx.channel msg hchannel, by rintro c ⟨⟩⟩
    · have hmem : (t.1, pc) ∈ s.mining.handlers := List.mem_of_getElem? hk
      refine ⟨(old hmem).1, fun c hc => ?_⟩
      rcases hstep.validated? hc with hold | ⟨minerId, rfl, rfl, hvalid, hdiff⟩
      · exact (old hmem).2 c hold
      · have hk : s.mining.handlers[k]? = some (t.1, .proof minerId) := hk
        refine List.mem_append_right _ (Option.mem_toList.2 ?_)
        rw [hhandler k rfl]
        simp [checked?, hk, hvalid, hdiff]

theorem Works.step (hx : Works su.mining.drillx (s, w)) (hfresh : FreshUuids (s, w.lives) a)
    (h : step su s a = some s') : Works su.mining.drillx (s', s.watchWork su.mining.drillx a w) where
  known := known_step hx.known hfresh h
  valid := hx.valid.watch
  channel msg hmsg := by
    rcases solution_step h hmsg with hmsg | ⟨t, ht, conn, hconn, hu⟩
    · obtain ⟨e, he, hu⟩ := hx.channel msg hmsg
      exact ⟨e, mem_watched_lives he, hu⟩
    · exact ⟨_, mem_watched_lives (hx.known.requests t ht conn hconn), hu.symm⟩
  handlers t ht := by
    obtain ⟨⟨e, he, hu⟩, hvalid⟩ := hx.handler h ht
    exact ⟨⟨e, mem_watched_lives he, hu⟩, hvalid⟩
  entries := by
    have hmono : s.mining.Entries ((s.watchWork su.mining.drillx a w).Worked su.mining.drillx) :=
      hx.entries.mono fun hwork => hwork.watch
    rcases mining_step h with he | ⟨b, hb⟩
    · rw [he]
      exact hmono
    · refine hmono.step (Mining.step_sound hb) fun msg minerId validated hmem => ?_
      obtain ⟨hauthor, hvalid⟩ := hx.handlers _ hmem
      exact Record.Worked.watch ⟨hauthor, _, hvalid validated rfl, rfl, rfl⟩

/-! ### What the rows pay -/

/-- The row pays the entry of the uuid in one of the messages. -/
def Shares (messages : List (ℕ × MessageInternalMineSuccess)) (row : InsertEarning) (src : ℕ × Uuid) : Prop :=
  ∃ m sub, (src.1, m) ∈ messages ∧ row.Pays m ⟨src.2, sub⟩

/-- The invariant: the rows that are there or to be written pay distinct entries of the messages that were received. -/
structure Accounted (init : List InsertEarning) (s : Server) : Prop where
  billed : s.mining.Billed
  kept : init <+: s.db.earnings
  rows : ∃ received new srcs, s.mining.messages = received ++ s.channel ∧ s.treasury.allEarnings = init ++ new ∧
    List.Forall₂ (Shares received) new srcs ∧ srcs.Nodup

private theorem shares_mono {messages messages' : List (ℕ × MessageInternalMineSuccess)} (h : ∀ x ∈ messages, x ∈ messages')
    {rows : List InsertEarning} {srcs : List (ℕ × Uuid)} (hs : List.Forall₂ (Shares messages) rows srcs) :
    List.Forall₂ (Shares messages') rows srcs := by
  refine hs.imp fun row src hshare => ?_
  obtain ⟨m, sub, hm, hpays⟩ := hshare
  exact ⟨m, sub, h _ hm, hpays⟩

/-- What the relation says of the second list alone. -/
private theorem forall_of_forall₂ {α β : Type} {R : α → β → Prop} {P : β → Prop} {as : List α} {bs : List β}
    (h : List.Forall₂ R as bs) (hP : ∀ a b, R a b → P b) : ∀ b ∈ bs, P b :=
  ((List.forall₂_and_left _ _).1 (h.flip.imp fun b a hab => ⟨hP a b hab, hab⟩)).1

/-- A source of some row is a message that was received. -/
private theorem mem_of_shares {messages : List (ℕ × MessageInternalMineSuccess)} {rows : List InsertEarning}
    {srcs : List (ℕ × Uuid)} (h : List.Forall₂ (Shares messages) rows srcs) :
    ∀ src ∈ srcs, src.1 ∈ messages.map Prod.fst := by
  refine forall_of_forall₂ h fun row src hshare => ?_
  obtain ⟨m, -, hm, -⟩ := hshare
  exact List.mem_map_of_mem hm

/-- The rows of a message, with their sources. -/
private theorem shares_of_payout {poolId : RowId} {x : ℕ × MessageInternalMineSuccess} {socks : Sockets}
    {rows : PayoutRows} (hu : UuidsUnique socks) (h : payoutRows poolId x.2 socks = some rows) :
    ∃ srcs, List.Forall₂ (Shares [x]) rows.earnings srcs ∧ srcs.Nodup ∧ ∀ src ∈ srcs, src.1 = x.1 := by
  obtain ⟨es, hpays, hnodup⟩ := payoutRows_pay hu h
  refine ⟨es.map fun e => (x.1, e.1), ?_, ?_, ?_⟩
  · refine List.forall₂_map_right_iff.2 (hpays.imp fun row e hpay => ?_)
    exact ⟨x.2, e.2, List.mem_singleton_self _, hpay⟩
  · have hmap : (es.map fun e => (x.1, e.1)) = (es.map Sigma.fst).map (Prod.mk x.1) := by
      rw [List.map_map]
      rfl
    rw [hmap]
    exact hnodup.map (Prod.mk_right_injective x.1)
  · intro src hsrc
    obtain ⟨e, -, rfl⟩ := List.mem_map.1 hsrc
    rfl

theorem Accounted.step {init : List InsertEarning} (hs : s.Accounted init) (hu : UuidsUnique s.serving.mem.sockets)
    (h : step su s a = some s') : s'.Accounted init := by
  have hbilled : s'.mining.Billed := by
    rcases mining_step h with he | ⟨b, hb⟩
    · rw [he]
      exact hs.billed
    · exact hs.billed.step (Mining.step_sound hb)
  have hkept : s.db.earnings <+: s'.db.earnings := by
    rcases hb : s.treasuryAction? su a with _ | b
    · have hledger : s.db.SameLedger s'.db := (treasury_idles h hb).ledger
      exact Update.prefix_of_eq hledger.earnings.symm
    · exact (Treasury.step_sound (treasury_step h hb)).earnings_kept
  obtain ⟨received, new, srcs, hmessages, hrows, hshares, hnodup⟩ := hs.rows
  refine ⟨hbilled, hs.kept.trans hkept, ?_⟩
  rcases channel_cases h with ⟨hno, sent, hchannel, hsent⟩ | ⟨rfl, x, hchannel, hsame, hdb, hrecv⟩
  · -- no other step takes a message, or adds a row
    have hearn : s'.treasury.allEarnings = s.treasury.allEarnings := by
      rcases hb : s.treasuryAction? su a with _ | b
      · exact (treasury_idles h hb).allEarnings
      · refine (Treasury.step_sound (treasury_step h hb)).allEarnings fun socks he => hno ?_
        rw [he] at hb
        exact (treasuryAction?_receive hb).1
    refine ⟨received, new, srcs, ?_, hearn.trans hrows, hshares, hnodup⟩
    rw [hsent, hchannel, hmessages, List.append_assoc]
  · have hmem : ∀ y ∈ received, y ∈ received ++ [x] := fun y hy => List.mem_append_left _ hy
    have hreceived : s'.mining.messages = (received ++ [x]) ++ s'.channel := by
      rw [hsame, hmessages, hchannel, List.append_assoc]
      rfl
    have hall : ∀ u : Server, u.treasury.allEarnings = u.db.earnings ++ u.mine.todo.flatMap MineStmt.earnings := fun u => rfl
    obtain ⟨-, htodo, hpanic | ⟨rows, hpay, hmine⟩⟩ := MineTask.receive_eq_some hrecv
    · refine ⟨received ++ [x], new, srcs, hreceived, ?_, shares_mono hmem hshares, hnodup⟩
      rw [← hrows, hall, hall, hdb, hpanic, htodo]
    · obtain ⟨srcs', hshares', hnodup', hsig⟩ := shares_of_payout hu hpay
      refine ⟨received ++ [x], new ++ rows.earnings, srcs ++ srcs', hreceived, ?_, ?_, ?_⟩
      · rw [← List.append_assoc, ← hrows, hall, hall, hdb, hmine, statements_earnings, htodo]
        simp
      · exact List.rel_append (shares_mono hmem hshares) (shares_mono (by simp) hshares')
      · refine List.nodup_append.2 ⟨hnodup, hnodup', fun src hsrc src' hsrc' he => ?_⟩
        -- a message is received once
        have hold : src.1 ∈ received.map Prod.fst := mem_of_shares hshares src hsrc
        have hnew : src.1 = x.1 := (congrArg Prod.fst he).trans (hsig src' hsrc')
        have honce := hs.billed.once
        rw [hmessages, hchannel, List.map_append, List.nodup_append] at honce
        exact honce.2.2 _ hold x.1 (by simp) hnew

/-- A row of `earnings` and what it pays: the transaction that was finalised, and the entry of the snapshot of its round,
whose message says the reward. -/
structure Backed (dx : Drillx) (x : Server × Record) (row : InsertEarning) (src : MineTx × Uuid) : Prop where
  landed : ⟨src.1, true⟩ ∈ x.1.mining.chain.landed
  share : ∃ m sub, (src.1.id, m) ∈ x.1.mining.messages ∧
    x.1.mining.history.rounds[src.1.round]? = some (m.challenge, m.submissions) ∧ row.Pays m ⟨src.2, sub⟩ ∧
    x.2.Worked dx src.2 sub

/-- A choice for each element of a list, from a relation with another one. -/
private theorem forall₂_choice {α β γ : Type} {R : α → β → Prop} {S : α → γ → Prop} {f : γ → β}
    (hRS : ∀ a b, R a b → ∃ c, S a c ∧ f c = b) {as : List α} {bs : List β} (h : List.Forall₂ R as bs) :
    ∃ cs, List.Forall₂ S as cs ∧ cs.map f = bs := by
  induction h with
  | nil => exact ⟨[], .nil, rfl⟩
  | @cons a b as bs hab _ ih =>
    obtain ⟨c, hc, rfl⟩ := hRS a b hab
    obtain ⟨cs, hcs, rfl⟩ := ih
    exact ⟨c :: cs, .cons hc hcs, rfl⟩

/-- In every run of the server in which identifiers are fresh: every new row of `earnings` pays an entry of the snapshot of
a round whose transaction is finalised, what it earned by the message of the round; the entry is a solution that came over
an authenticated connection and was valid for the challenge of the server's proof when it was looked at; and no two rows
pay the same connection for the same round. -/
theorem paid_for_work (su : ServerSetup) (proof : Proof) (db : Database) {x : Server × Record} {as : List Action}
    (hfresh : Along (watched (step su) (watchWork su.mining.drillx)) (fun x a => FreshUuids (x.1, x.2.lives) a)
      (start proof db, .empty) as)
    (h : run (watched (step su) (watchWork su.mining.drillx)) (start proof db, .empty) as = some x) :
    x.2.Valid su.mining.drillx ∧ ∃ new srcs, x.1.db.earnings = db.earnings ++ new ∧
      List.Forall₂ (Backed su.mining.drillx x) new srcs ∧ (srcs.map fun src => (src.1.round, src.2)).Nodup := by
  have h0 : Works su.mining.drillx (start proof db, .empty) ∧ (start proof db).Accounted db.earnings := by
    refine ⟨⟨Serving.start_known proof db, by rintro p ⟨⟩, by rintro msg ⟨⟩, by rintro t ⟨⟩,
      Mining.start_entries _ proof db⟩, Mining.start_billed proof db, List.prefix_rfl, [], [], [], rfl, ?_, .nil, List.nodup_nil⟩
    rfl
  have hx : Works su.mining.drillx x ∧ x.1.Accounted db.earnings := by
    refine run_invariant (I := fun x => Works su.mining.drillx x ∧ x.1.Accounted db.earnings) ?_ h0 hfresh h
    intro y a y' hy hfresh hstep
    obtain ⟨hstep, hw⟩ := watched_eq_some.1 hstep
    refine ⟨?_, hy.2.step (uuidsUnique_of_known hy.1.known) hstep⟩
    have hworks := hy.1.step hfresh hstep
    rw [← hw] at hworks
    exact hworks
  obtain ⟨hworks, haccounted⟩ := hx
  obtain ⟨new, hnew⟩ := haccounted.kept
  obtain ⟨received, all, srcs, hmessages, hrows, hshares, hnodup⟩ := haccounted.rows
  obtain ⟨bills, hbills, hrounds, hof⟩ := haccounted.billed.messages
  -- the rows that are written are the first ones
  have hall : all = new ++ x.1.mine.todo.flatMap MineStmt.earnings := by
    have hsplit : x.1.db.earnings ++ x.1.mine.todo.flatMap MineStmt.earnings = db.earnings ++ all := hrows
    rw [← hnew, List.append_assoc] at hsplit
    exact (List.append_cancel_left hsplit).symm
  have hfirst : List.Forall₂ (Shares received) new (srcs.take new.length) := by
    have htake := List.forall₂_take new.length hshares
    rwa [hall, List.take_left] at htake
  -- each has a transaction that was finalised
  have hbacked : ∀ row src, Shares received row src → ∃ p : MineTx × Uuid,
      (Backed su.mining.drillx x row p ∧ p.1 ∈ bills.map Prod.fst) ∧ (p.1.id, p.2) = src := by
    rintro row ⟨sig, uuid⟩ ⟨m, sub, hm, hpays⟩
    have hmem : (sig, m) ∈ x.1.mining.messages := by
      rw [hmessages]
      exact List.mem_append_left _ hm
    rw [← hbills] at hmem
    obtain ⟨b, hb, he⟩ := List.mem_map.1 hmem
    obtain ⟨hlanded, hid, hround⟩ := hof b hb
    rw [he] at hround
    replace hid : b.1.id = sig := by
      rw [hid, he]
    rw [hbills, ← hid] at hmem
    have hwork := hworks.entries.rounds _ (List.mem_of_getElem? hround) _ hpays.entry
    exact ⟨(b.1, uuid), ⟨⟨hlanded, m, sub, hmem, hround, hpays, hwork⟩, List.mem_map_of_mem hb⟩, by rw [hid]⟩
  obtain ⟨ps, hps, hsrcs⟩ := forall₂_choice hbacked hfirst
  refine ⟨hworks.valid, new, ps, hnew.symm, hps.imp fun row p hp => hp.1, ?_⟩
  have hdistinct : (ps.map fun p => (p.1.id, p.2)).Nodup := by
    rw [hsrcs]
    exact (List.take_sublist _ _).nodup hnodup
  have hbill : ∀ p ∈ ps, p.1 ∈ bills.map Prod.fst := forall_of_forall₂ hps fun row p hp => hp.2
  refine List.pairwise_map.2 ((List.pairwise_map.1 hdistinct).imp_of_mem fun {p p'} hp hp' hne he => hne ?_)
  -- no two transactions are paid for one round
  obtain ⟨b, hb, hbp⟩ := List.mem_map.1 (hbill p hp)
  obtain ⟨b', hb', hbp'⟩ := List.mem_map.1 (hbill p' hp')
  have hround : b.1.round = b'.1.round := by
    rw [hbp, hbp']
    exact (Prod.mk.inj he).1
  have hsame : b = b' := List.inj_on_of_nodup_map hrounds hb hb' hround
  rw [← hbp, ← hbp', hsame, (Prod.mk.inj he).2]

theorem paid_for_work_example :
    ∃ x row src, run (watched (step Serving.exampleServerSetup) (watchWork exampleDrillx)) (exampleStart, .empty)
        (mineOne ++ payOne) = some x ∧ x.1.db.earnings = [row] ∧ Backed exampleDrillx x row src := by
  obtain ⟨x, h, hlen⟩ : ∃ x, run (watched (step Serving.exampleServerSetup) (watchWork exampleDrillx))
      (exampleStart, .empty) (mineOne ++ payOne) = some x ∧ x.1.db.earnings.length = 1 := exists_of_run (by decide +kernel)
  obtain ⟨-, new, srcs, hearn, hbacked, -⟩ :=
    paid_for_work Serving.exampleServerSetup Assigning.exampleProof (Database.single (filled 7) 0) (by decide +kernel) h
  replace hearn : x.1.db.earnings = new := hearn
  obtain ⟨row, rfl⟩ := List.length_eq_one_iff.1 (hearn ▸ hlen)
  cases hbacked with
  | cons hrow _ => exact ⟨x, row, _, h, hearn, hrow⟩

end Server

end BitzPool
