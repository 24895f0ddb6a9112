import BitzPool.Basic
import BitzPool.Lib.Discipline

/-!
# The locks of the server

What the tasks of the server do with its locks, and what they wait for in between: one program for each function, with the
data left out, so that every branch may be taken.  A reader of `app_state` may lock a socket and send to the client, as the
two replies to a submission do; every other lock is taken alone, and given back before anything else is awaited.

So the server cannot deadlock: as long as the clients take what is sent to them, all locks become free, whatever the database
and the chain do (`locks_released`).  But a client that does not read its socket holds up `app_state` from within such a
reply, and with the next writer all tasks that need the state of the connections come to a standstill (`reply_jams`).
-/

namespace BitzPool.Locking

open Transition Locks Relation

inductive LockId
  | appState
  | proof
  | epochHashes
  | readyClients
  | nonce
  | clientNonceRanges
  | submissionWindow
  | lastChallenge
  | pongs
  | claimsQueue
  | socket (uuid : Uuid)
  deriving DecidableEq

inductive Event
  /-- a message to a client has been sent, or could not be sent -/
  | send (uuid : Uuid)
  /-- the database, the chain or its pubsub service answers -/
  | call
  | sleep
  /-- a message comes in, or a task has ended -/
  | recv
  deriving DecidableEq

abbrev Program := Prog LockId Event

/-! ### Sections -/

def read (l : LockId) (body : List Program) : Program := .block [.acquire l .shared, .block body, .release l]

/-- `write` of an `RwLock`, or `lock` of a `Mutex`. -/
def write (l : LockId) (body : List Program) : Program := .block [.acquire l .exclusive, .block body, .release l]

def optional (ps : List Program) : Program := .alt .skip (.block ps)

/-- Calls and pauses, any number of them, outside of all locks. -/
def calls : Program := .loop (.alt (.wait .call) (.wait .sleep))

def sendTo (uuid : Uuid) : Program := write (.socket uuid) [.wait (.send uuid)]

/-! ### Connections -/

def handleSocket (uuid : Uuid) : Program :=
  .block [
    .wait (.send uuid),
    optional [
      -- an address that is connected already is turned away
      write .appState [],
      optional [.wait .recv, write .appState []]]]

/-- The task that hands the messages of a client on. -/
def receiveMessages : Program := .loop (.wait .recv)

def pingCheckSystem : Program :=
  .loop (.block [read .appState [], .loop (.block [.wait .recv, optional [write .appState []]]), .wait .sleep])

def pongTrackingSystem (pongs : ℕ) : Program :=
  .loop (.block [
    read .pongs [],
    .rep pongs (optional [write .appState [], write .pongs []]),
    .wait .sleep])

def clientMessageHandlerSystem : Program := .loop (.block [.wait .recv, optional [write .pongs []]])

def handleReady : Program := write .readyClients []

/-- The reply goes out while `app_state` is read. -/
def replyUnderLock (uuid : Uuid) : Program := read .appState [optional [sendTo uuid]]

/-- The solution is held against the challenge, and kept when it is the best one of the client. -/
def checkSolution (uuid : Uuid) : Program :=
  optional [
    write .proof [],
    .alt (replyUnderLock uuid) <| optional [read .epochHashes [], optional [write .epochHashes []]]]

def handleBestSolution (uuid : Uuid) : Program :=
  .block [
    read .submissionWindow [],
    .alt (replyUnderLock uuid) <| .block [
      read .clientNonceRanges [],
      optional [read .appState [], checkSolution uuid]]]

def handleReadyClientsSystem (clients : ℕ) : Program :=
  .loop (.block [
    read .appState [],
    .alt (.wait .sleep) <| .block [
      write .readyClients [],
      optional [
        write .proof [],
        optional [read .epochHashes []],
        read .submissionWindow [],
        optional [
          write .proof [],
          .rep clients (optional [read .appState [], optional [write .nonce []], write .readyClients []])]]],
    .wait .sleep])

/-- The task that sends a client its range, and writes it down. -/
def startMining (uuid : Uuid) : Program :=
  .block [sendTo uuid, read .clientNonceRanges [], write .clientNonceRanges []]

def messageTextAllClientsSystem : Program := .loop (.block [.wait .recv, read .appState []])

def getConnectedMiners : Program := read .appState []

/-! ### Rounds -/

def proofTrackingSystem : Program :=
  .loop (.block [
    .wait .call,
    .loop (.block [.wait .call, .wait .sleep]),
    optional [
      .wait .call,
      .loop (.block [.wait .recv, optional [write .lastChallenge [], optional [write .proof []]]])]])

/-- A new round: the nonces, the ranges and the submissions of the last one are cleared, and the window opens. -/
def reset : Program :=
  .block [write .nonce [], write .clientNonceRanges [], write .epochHashes [], write .submissionWindow []]

/-- After the transaction has been finalized, the main task sees to the new round, if the watcher has not. -/
def awaitProof : Program :=
  .block [
    .loop (.block [write .proof [], .wait .call]),
    write .proof [],
    .alt (.block [.wait .call, write .proof [], reset, calls])
      (.block [read .epochHashes [], optional [reset, calls]])]

def submitAttempt : Program :=
  .alt (.wait .sleep) <| .block [
    .wait .sleep,
    .wait .call,
    .alt (write .proof []) <| .block [calls, optional [awaitProof]]]

def poolSubmissionSystem : Program :=
  .loop (.block [
    write .proof [],
    .alt (.wait .sleep) <| .block [
      read .epochHashes [],
      .alt (.wait .sleep) <| .block [
        write .submissionWindow [],
        read .epochHashes [],
        .rep 10 (optional [submitAttempt]),
        optional [reset],
        .wait .sleep]]])

/-- The task that looks for a new proof while the transaction is on its way. -/
def watchProof : Program :=
  .block [
    .wait .sleep,
    .loop (.block [.wait .sleep, write .proof [], .wait .call, .wait .sleep]),
    optional [
      .wait .sleep,
      write .proof [],
      .alt (.block [.wait .call, write .proof [], write .lastChallenge [], reset, calls])
        (.block [write .lastChallenge [], calls, reset])]]

/-- The task that books a finalized transaction and reports the round. -/
def reportMined : Program := .block [calls, optional [write .proof [], .wait .sleep]]

def poolMineSuccessSystem : Program := .loop (.block [.wait .recv, read .appState [], calls])

/-! ### Claims -/

def claimSystem : Program :=
  .loop (.block [
    read .claimsQueue [],
    .alt (.wait .sleep) <| .block [
      .wait .call,
      .alt (write .claimsQueue []) <| .block [calls, optional [write .claimsQueue []], optional [.wait .sleep]]]])

def postClaimV2 : Program := optional [read .claimsQueue [], optional [calls, optional [write .claimsQueue []]]]

def claimDirect : Program := .block [calls, optional [write .claimsQueue []]]

/-! ### The tasks of the server -/

inductive Job
  | handleSocket (uuid : Uuid)
  | receiveMessages
  | pingCheckSystem
  /-- a message to one client: a ping, a text, or the result of a round -/
  | sendTo (uuid : Uuid)
  | pongTrackingSystem (pongs : ℕ)
  | clientMessageHandlerSystem
  | handleReady
  | handleBestSolution (uuid : Uuid)
  | handleReadyClientsSystem (clients : ℕ)
  | startMining (uuid : Uuid)
  | messageTextAllClientsSystem
  | getConnectedMiners
  | proofTrackingSystem
  | poolSubmissionSystem
  | watchProof
  | reportMined
  | poolMineSuccessSystem
  | claimSystem
  | postClaimV2
  | claimDirect
  /-- a request, or a task, that takes no lock -/
  | calls
  deriving DecidableEq

def Job.program : Job → Program
  | .handleSocket uuid => Locking.handleSocket uuid
  | .receiveMessages => Locking.receiveMessages
  | .pingCheckSystem => Locking.pingCheckSystem
  | .sendTo uuid => Locking.sendTo uuid
  | .pongTrackingSystem pongs => Locking.pongTrackingSystem pongs
  | .clientMessageHandlerSystem => Locking.clientMessageHandlerSystem
  | .handleReady => Locking.handleReady
  | .handleBestSolution uuid => Locking.handleBestSolution uuid
  | .handleReadyClientsSystem clients => Locking.handleReadyClientsSystem clients
  | .startMining uuid => Locking.startMining uuid
  | .messageTextAllClientsSystem => Locking.messageTextAllClientsSystem
  | .getConnectedMiners => Locking.getConnectedMiners
  | .proofTrackingSystem => Locking.proofTrackingSystem
  | .poolSubmissionSystem => Locking.poolSubmissionSystem
  | .watchProof => Locking.watchProof
  | .reportMined => Locking.reportMined
  | .poolMineSuccessSystem => Locking.poolMineSuccessSystem
  | .claimSystem => Locking.claimSystem
  | .postClaimV2 => Locking.postClaimV2
  | .claimDirect => Locking.claimDirect
  | .calls => Locking.calls

/-- The client that the task sends to in the scope of `app_state`. -/
def Job.replies : Job → Uuid → Bool
  | .handleBestSolution uuid, uuid' => uuid = uuid'
  | _, _ => false

abbrev State := Locks.State LockId Event

abbrev Action := State.Action LockId Event

/-- The programs of the tasks, in the order in which they are started. -/
def started (as : List Action) : List Program := as.flatMap State.Action.spawned

/-- The server starts tasks for these jobs only. -/
def Serves (as : List Action) : Prop := ∀ p, .spawn p ∈ as → ∃ job : Job, p = job.program

/-! ### The order of the locks -/

def nest (replies : Uuid → Bool) : LockId → LockId → Bool
  | .appState, .socket uuid => replies uuid
  | _, _ => false

def may (replies : Uuid → Bool) : LockId → Event → Bool
  | .appState, .send uuid => replies uuid
  | .socket uuid, .send uuid' => uuid = uuid'
  | _, _ => false

/-- The sockets of those who get a reply are locked in the scope of `app_state`, and only sends are awaited in the scope of a
lock. -/
def lockOrder (replies : Uuid → Bool) : Discipline LockId Event where
  nest := nest replies
  may := may replies
  slow
    | .send _ => false
    | _ => true
  rank
    | .appState => 1
    | _ => 0
  rank_lt {l l'} h := by
    cases l <;> cases l' <;> simp [nest] at h ⊢

section Check

variable {replies : Uuid → Bool} {uuid : Uuid}

theorem check_sendTo : (sendTo uuid).check (lockOrder replies) [] = some [] := by
  simp [sendTo, write, Prog.block, Prog.check, lockOrder, may]

theorem check_replyUnderLock (h : replies uuid = true) :
    (replyUnderLock uuid).check (lockOrder replies) [] = some [] := by
  simp [replyUnderLock, optional, sendTo, read, write, Prog.block, Prog.check, lockOrder, nest, may, h]

theorem check_checkSolution (h : replies uuid = true) :
    (checkSolution uuid).check (lockOrder replies) [] = some [] :=
  Prog.check_alt rfl (Prog.check_seq rfl (Prog.check_seq (Prog.check_alt (check_replyUnderLock h) rfl) rfl))

theorem check_handleBestSolution (h : replies uuid = true) :
    (handleBestSolution uuid).check (lockOrder replies) [] = some [] := by
  have hrest : (optional [read .appState [], checkSolution uuid]).check (lockOrder replies) [] = some [] :=
    Prog.check_alt rfl (Prog.check_seq rfl (Prog.check_seq (check_checkSolution h) rfl))
  have hopen : (Prog.block [read .clientNonceRanges [], optional [read .appState [], checkSolution uuid]]).check
      (lockOrder replies) [] = some [] := Prog.check_seq rfl (Prog.check_seq hrest rfl)
  exact Prog.check_seq rfl (Prog.check_seq (Prog.check_alt (check_replyUnderLock h) hopen) rfl)

/-- Every task keeps to the order of the locks, and ends without one. -/
theorem Job.check (job : Job) (h : ∀ uuid, job.replies uuid = true → replies uuid = true) :
    job.program.check (lockOrder replies) [] = some [] := by
  cases job with
  | sendTo uuid => exact check_sendTo
  | startMining uuid => exact Prog.check_seq check_sendTo rfl
  | handleBestSolution uuid => exact check_handleBestSolution (h uuid (decide_eq_true rfl))
  | pongTrackingSystem pongs =>
    refine Prog.check_loop ?_ rfl
    simp [Prog.block, Prog.stops, lockOrder]
  | _ => rfl

end Check

variable {as bs : List Action} {s s' : State}

theorem kept_of_run (has : Serves as) (h : run State.step State.empty as = some s) :
    s.Kept (lockOrder fun _ => true) := by
  refine State.Kept.empty.of_run (fun p hp => ?_) h
  obtain ⟨job, rfl⟩ := has p hp
  exact job.check fun _ _ => rfl

/-- What is awaited in the scope of a lock. -/
private theorem may_eq_true {replies : Uuid → Bool} {l : LockId} {e : Event} (h : (lockOrder replies).may l e = true) :
    ∃ uuid, e = .send uuid ∧ (l = .appState ∧ replies uuid = true ∨ l = .socket uuid) := by
  cases l <;> cases e <;> simp [lockOrder, may] at h
  · next uuid => exact ⟨uuid, rfl, .inl ⟨rfl, h⟩⟩
  · next uuid uuid' => exact ⟨uuid', rfl, .inr (by rw [h])⟩

/-! ### No deadlock -/

/-- The sends to clients that take what they are sent. -/
def Taken (takes : Uuid → Prop) : Event → Prop
  | .send uuid => takes uuid
  | _ => False

instance (takes : Uuid → Prop) [DecidablePred takes] : DecidablePred (Taken takes)
  | .send uuid => inferInstanceAs (Decidable (takes uuid))
  | .call | .sleep | .recv => inferInstanceAs (Decidable False)

/-- From `app_state` one comes to the sockets, and from a socket no further. -/
private theorem nest_path {replies : Uuid → Bool} {l l' : LockId}
    (h : ReflTransGen (fun l l' => (lockOrder replies).nest l l' = true) l l') :
    l' = l ∨ l = .appState ∧ ∃ uuid, l' = .socket uuid := by
  induction h with
  | refl => exact .inl rfl
  | @tail m l' _ hnest ih =>
    cases m <;> cases l' <;> simp [lockOrder, nest] at hnest
    next uuid =>
      rcases ih with hm | ⟨-, _, ⟨⟩⟩
      exact .inr ⟨hm.symm, uuid, rfl⟩

/-- The server does not deadlock.  Whatever its tasks have done so far, and however they are scheduled: without anything
further from the database, the chain or the clock, and while no message comes in, no task that is waited for ends, and none
is started or stopped, they come to rest, and then a lock is held, or asked for, only because a client does not take what it
is sent; it is the lock of this client's socket, or `app_state`. -/
theorem locks_released (has : Serves as) (h : run State.step State.empty as = some s) (takes : Uuid → Prop)
    (hbs : Along State.step (State.Inner (Taken takes)) s bs) (h' : run State.step s bs = some s') :
    bs.length ≤ s.cost (lockOrder fun _ => true) ∧
      (s'.Resting (Taken takes) → ∀ l, s'.Held l ∨ s'.queue l ≠ [] →
        ∃ uuid, ¬takes uuid ∧ (l = .appState ∨ l = .socket uuid) ∧
          ∃ (i : ℕ) (t : Locks.Task LockId Event), s'.tasks[i]? = some t ∧ t.waits? = some (.send uuid) ∧
            (l ∈ t.held.map Prod.fst ∨ .socket uuid ∈ t.held.map Prod.fst)) := by
  have hkept : s.Kept (lockOrder fun _ => true) := kept_of_run has h
  have hfast : ∀ e, Taken takes e → (lockOrder fun _ => true).slow e = false := by
    intro e he
    cases e with
    | send uuid => rfl
    | call | sleep | recv => exact he.elim
  constructor
  · have := State.length_le_cost hkept hfast hbs h'
    omega
  · intro hrest l hl
    have hkept' : s'.Kept (lockOrder fun _ => true) := hkept.inner hbs h'
    obtain ⟨l', hpath, i, t, ht, hheld, e, hwaits, hmay, hnot⟩ := State.blocked_of_resting hkept' hrest hl
    obtain ⟨uuid, rfl, hl'⟩ := may_eq_true hmay
    refine ⟨uuid, hnot, ?_, i, t, ht, hwaits, ?_⟩
    · rcases nest_path hpath with rfl | ⟨rfl, -⟩
      · exact hl'.imp And.left id
      · exact .inl rfl
    · rcases hl' with ⟨rfl, -⟩ | rfl
      · rcases nest_path hpath with rfl | ⟨-, uuid', ⟨⟩⟩
        exact .inl hheld
      · exact .inr hheld

/-- A client has submitted too late and the reply to it is being sent, when the sweep is about to drop a client. -/
def lateReply : List Action := List.flatten [
  [.spawn (Job.handleBestSolution 7).program, .spawn (Job.pongTrackingSystem 1).program],
  List.replicate 2 (.go 0 true), [.request 0, .grant .submissionWindow],
  List.replicate 8 (.go 0 true), [.request 0, .grant .appState],
  List.replicate 2 (.go 0 true), [.go 0 false], List.replicate 2 (.go 0 true), [.request 0, .grant (.socket 7)],
  List.replicate 2 (.go 0 true),
  List.replicate 3 (.go 1 true), [.request 1, .grant .pongs],
  List.replicate 7 (.go 1 true), [.go 1 false], List.replicate 2 (.go 1 true), [.request 1]]

theorem serves_lateReply : Serves lateReply := by
  intro p hp
  simp only [lateReply, List.flatten_cons, List.flatten_nil, List.mem_append, List.mem_cons, List.mem_replicate,
    reduceCtorEq, and_false, or_false, List.not_mem_nil, State.Action.spawn.injEq] at hp
  rcases hp with rfl | rfl
  · exact ⟨.handleBestSolution 7, rfl⟩
  · exact ⟨.pongTrackingSystem 1, rfl⟩

/-- The client takes the reply, and the sweep goes on. -/
def replyTaken : List Action := List.flatten [
  [.wake 0], List.replicate 10 (.go 0 true), [.grant .appState],
  List.replicate 7 (.go 1 true), [.request 1, .grant .pongs], List.replicate 8 (.go 1 true)]

theorem locks_released_example : ∃ s, run State.step State.empty lateReply = some s ∧ s.queue .appState = [1] ∧
    ∃ s', run State.step s replyTaken = some s' ∧ replyTaken.length ≤ s.cost (lockOrder fun _ => true) ∧
      (s'.Resting (Taken fun _ => True) → ∀ l, ¬(s'.Held l ∨ s'.queue l ≠ [])) := by
  have hrun : ∃ s, run State.step State.empty lateReply = some s ∧ s.queue .appState = [1] ∧
      Along State.step (State.Inner (Taken fun _ => True)) s replyTaken ∧
      (run State.step s replyTaken).isSome = true := exists_of_run (by decide +kernel)
  obtain ⟨s, hs, hqueue, hinner, hrun⟩ := hrun
  obtain ⟨s', hs'⟩ := Option.isSome_iff_exists.1 hrun
  obtain ⟨hlength, hfree⟩ := locks_released serves_lateReply hs (fun _ => True) hinner hs'
  refine ⟨s, hs, hqueue, s', hs', hlength, fun hrest l hl => ?_⟩
  obtain ⟨uuid, hnot, -⟩ := hfree hrest l hl
  exact hnot trivial

/-! ### A client that does not read -/

/-- Whoever waits for something while it reads `app_state`, or asks for another lock, replies to a submission: it sends, or
waits for its turn to send to this client.  If the state is to be written meanwhile, then as long as the client does not take
this message, or the one that the reply stands behind, everybody who asks for `app_state` from then on stays in front of it,
the writer too.  (A task that stands in a queue is not stopped here; the web server may drop a request that does.) -/
theorem reply_jams (has : Serves as) (h : run State.step State.empty as = some s) {i j : ℕ}
    {t : Locks.Task LockId Event} (ht : s.tasks[j]? = some t) (hheld : .appState ∈ t.held.map Prod.fst) :
    (∀ e, t.waits? = some e → ∃ uuid, (started as)[j]? = some (handleBestSolution uuid) ∧ e = .send uuid) ∧
      (∀ l m, t.pending = some (l, m) → ∃ uuid, (started as)[j]? = some (handleBestSolution uuid) ∧ l = .socket uuid) ∧
      ∀ x, s.Behind x j → s.pending? i = some (.appState, .exclusive) → .wake x ∉ bs → .stop x ∉ bs →
        run State.step s bs = some s' →
        s'.tasks[j]? = some t ∧ s'.jam .appState i = s.jam .appState i ++ s.asked .appState bs ∧
          ∀ k ∈ s.jam .appState i ++ s.asked .appState bs, ∃ m, s'.pending? k = some (.appState, m) := by
  obtain ⟨job, hp, hkeeps⟩ : ∃ job : Job, (started as)[j]? = some job.program ∧ t.Keeps (lockOrder job.replies) := by
    obtain ⟨p, hp, hkeeps⟩ := State.exists_origin h ht
    obtain ⟨a, ha, hmem⟩ := List.mem_flatMap.1 (List.mem_of_getElem? hp)
    cases a <;> simp [State.Action.spawned] at hmem
    subst hmem
    obtain ⟨job, rfl⟩ := has p ha
    exact ⟨job, hp, hkeeps _ (job.check fun _ hr => hr)⟩
  have hreply : ∀ {uuid}, job.replies uuid = true → (started as)[j]? = some (handleBestSolution uuid) := by
    intro uuid hreplies
    cases job <;> simp [Job.replies] at hreplies
    subst hreplies
    exact hp
  refine ⟨fun e hwaits => ?_, fun l m hpending => ?_, fun x hx hwriter hwake hstop h' => ?_⟩
  · obtain ⟨uuid, rfl, ⟨-, hreplies⟩ | hsocket⟩ := may_eq_true (hkeeps.may hwaits hheld)
    · exact ⟨uuid, hreply hreplies, rfl⟩
    · cases hsocket
  · obtain ⟨held, hmem, hlock⟩ := List.mem_map.1 hheld
    have hnest : nest job.replies .appState l = true := hlock ▸ hkeeps.nest hpending held hmem
    cases l with
    | socket uuid => exact ⟨uuid, hreply hnest, rfl⟩
    | _ => cases hnest
  · have hqueued : s.Queued := (kept_of_run has h).toQueued
    have hjammed : s.Jammed .appState j i := ⟨⟨t, ht, hheld⟩, hwriter⟩
    obtain ⟨-, hsame, hjam⟩ := State.jam_run hqueued hjammed hx hwake hstop h'
    refine ⟨hsame.trans ht, hjam, fun k hk => ?_⟩
    have hqueued' : s'.Queued := hqueued.of_run h'
    exact (hqueued'.queue .appState k).1 (State.mem_queue_of_mem_jam (hjam ▸ hk))

/-- A text is being sent to a client that has submitted too late.  The reply to it stands behind the text, when the sweep is
about to drop a client. -/
def replyBehindText : List Action := List.flatten [
  [.spawn (Job.sendTo 7).program, .spawn (Job.handleBestSolution 7).program, .spawn (Job.pongTrackingSystem 1).program],
  [.go 0 true, .request 0, .grant (.socket 7)], List.replicate 2 (.go 0 true),
  List.replicate 2 (.go 1 true), [.request 1, .grant .submissionWindow],
  List.replicate 8 (.go 1 true), [.request 1, .grant .appState],
  List.replicate 2 (.go 1 true), [.go 1 false], List.replicate 2 (.go 1 true), [.request 1],
  List.replicate 3 (.go 2 true), [.request 2, .grant .pongs],
  List.replicate 7 (.go 2 true), [.go 2 false], List.replicate 2 (.go 2 true), [.request 2]]

theorem serves_replyBehindText : Serves replyBehindText := by
  intro p hp
  simp only [replyBehindText, List.flatten_cons, List.flatten_nil, List.mem_append, List.mem_cons, List.mem_replicate,
    reduceCtorEq, and_false, or_false, List.not_mem_nil, State.Action.spawn.injEq] at hp
  rcases hp with rfl | rfl | rfl
  · exact ⟨.sendTo 7, rfl⟩
  · exact ⟨.handleBestSolution 7, rfl⟩
  · exact ⟨.pongTrackingSystem 1, rfl⟩

/-- The number of connected miners is asked for. -/
def stateAsked : List Action := [.spawn getConnectedMiners, .go 3 true, .request 3]

theorem reply_jams_example : ∃ s s', run State.step State.empty replyBehindText = some s ∧
    (∃ uuid, (started replyBehindText)[1]? = some (handleBestSolution uuid) ∧ LockId.socket 7 = .socket uuid) ∧
    run State.step s stateAsked = some s' ∧ s'.jam .appState 2 = [2, 3] := by
  have hrun : ∃ s, run State.step State.empty replyBehindText = some s ∧
      (∃ t ∈ s.tasks[0]?, .socket 7 ∈ t.held.map Prod.fst ∧ t.waits?.isSome = true) ∧
      (∃ t ∈ s.tasks[1]?, .appState ∈ t.held.map Prod.fst ∧ t.pending = some (.socket 7, .exclusive)) ∧
      s.pending? 2 = some (.appState, .exclusive) ∧ s.jam .appState 2 ++ s.asked .appState stateAsked = [2, 3] ∧
      (run State.step s stateAsked).isSome = true := exists_of_run (by decide +kernel)
  obtain ⟨s, hs, ⟨u, hu, hsocket, hwaits⟩, ⟨t, ht, hheld, hpending⟩, hwriter, hjam, hrun⟩ := hrun
  obtain ⟨s', hs'⟩ := Option.isSome_iff_exists.1 hrun
  have hbehind : s.Behind 0 1 := by
    refine ⟨⟨u, hu, hwaits⟩, Or.inr ⟨.socket 7, ⟨u, hu, hsocket⟩, ?_⟩⟩
    rw [State.pending?_eq ht, hpending]
  obtain ⟨-, hreply, hstay⟩ := reply_jams serves_replyBehindText hs ht hheld
  obtain ⟨-, hjam', -⟩ := hstay 0 hbehind hwriter (by decide) (by decide) hs'
  exact ⟨s, s', hs, hreply _ _ hpending, hs', hjam'.trans hjam⟩

end BitzPool.Locking
