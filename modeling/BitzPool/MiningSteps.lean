import BitzPool.Lib.Update
import BitzPool.Mining

/-!
# Steps of the mining tasks

`MainStep`, `WatcherStep` and `HandlerStep` list the transitions of the three kinds of tasks that share the epoch's
memory, and `Mining.Step` those of the system; `Mining.step_sound` says that it takes no others.  The invariants of
the mining side are proved by cases on these relations.
-/

namespace BitzPool

open Update

theorem History.exec_rounds (h : History) (m : EpochMemory) (op : EpochOp) : (h.exec m op).rounds = h.rounds := by
  cases op <;> rfl

theorem History.accept_rounds (h : History) (msg : BestSolution) (pc : HandlerPc) :
    (h.accept msg pc).rounds = h.rounds := by
  cases pc with
  | write =>
    show (if _ then _ else _ : History).rounds = _
    split <;> rfl
  | _ => rfl

/-! ### The main loop -/

namespace MainPc

/-- The round the main loop holds. -/
def round? : MainPc → Option MainRound
  | .attempt r _ | .staleProof r _ | .blockhash r _ _ | .simulate r _ _ _ | .send r _ _ _ _ | .poll r _ _ _
  | .stop r _ _ _ _ | .readProof r | .getProof r _ | .compareEpoch r _ | .discard r _ => some r
  | .top | .cutoff _ | .solution _ | .close _ | .snapshot _ | .enter _ => none

/-- The main loop waits for a solution that is due. -/
def waiting : MainPc → Bool
  | .top | .cutoff _ | .solution _ | .close _ => true
  | _ => false

/-- The round whose next transaction is being prepared. -/
def preparing? : MainPc → Option MainRound
  | .attempt r _ | .staleProof r _ | .blockhash r _ _ => some r
  | _ => none

/-- The mined round whose successor's proof is awaited. -/
def mined? : MainPc → Option MainRound
  | .readProof r | .getProof r _ | .compareEpoch r _ => some r
  | _ => none

/-- The next step of the main loop takes the snapshot. -/
def atSnapshot : MainPc → Bool
  | .snapshot _ => true
  | _ => false

/-- The operations of a branch that are still to be executed. -/
def ops : MainPc → List EpochOp
  | .enter ops | .discard _ ops => ops
  | _ => []

/-- The main loop has taken the snapshot of its round. -/
def pastSnapshot : MainPc → Bool
  | .top | .cutoff _ | .solution _ | .close _ | .snapshot _ => false
  | _ => true

/-- A branch has yet to empty the submissions. -/
def resetAhead (pc : MainPc) : Bool := pc.ops.any EpochOp.resets

theorem round?_of_preparing? {pc : MainPc} {r : MainRound} (h : pc.preparing? = some r) : pc.round? = some r := by
  cases pc <;> first | exact h | cases h

theorem round?_of_mined? {pc : MainPc} {r : MainRound} (h : pc.mined? = some r) : pc.round? = some r := by
  cases pc <;> first | exact h | cases h

theorem ops_of_preparing? {pc : MainPc} {r : MainRound} (h : pc.preparing? = some r) : pc.ops = [] := by
  cases pc <;> first | rfl | cases h

theorem ops_of_mined? {pc : MainPc} {r : MainRound} (h : pc.mined? = some r) : pc.ops = [] := by
  cases pc <;> first | rfl | cases h

theorem round?_of_waiting {pc : MainPc} (h : pc.waiting = true) : pc.round? = none := by
  cases pc <;> first | rfl | cases h

end MainPc

def WatcherPc.ops : WatcherPc → List EpochOp
  | .enter ops => ops
  | _ => []

def WatcherPc.resetAhead (pc : WatcherPc) : Bool := pc.ops.any EpochOp.resets

/-- The transitions of the main loop. -/
inductive MainStep (dx : Drillx) (cfg : RowId) (rounds : ℕ) (m : MainMemory) :
    MainInput → MainPc → MainMemory → MainPc → MainEvent → Prop
  | wait {pc pc' : MainPc} : pc.waiting → pc'.waiting → MainStep dx cfg rounds m .go pc m pc' .none
  | close {old : Proof} :
      MainStep dx cfg rounds m .go (.close old) { m with mem.closed := true } (.snapshot old) .none
  | snapshot {old : Proof} {r : MainRound} :
      r = ⟨rounds, old, m.mem.epochHashes.bestHash.solution, m.mem.epochHashes.submissions⟩ →
      MainStep dx cfg rounds m .go (.snapshot old) m (.attempt r 0) (.snapshot r)
  | prepare {i : MainInput} {pc pc' : MainPc} {r : MainRound} :
      pc.preparing? = some r → pc'.preparing? = some r → MainStep dx cfg rounds m i pc m pc' .none
  | exhausted {r : MainRound} {i : ℕ} :
      maxAttempts ≤ i → MainStep dx cfg rounds m .go (.attempt r i) m (.discard r discardOps) .none
  | stale {r : MainRound} {p : Proof} :
      MainStep dx cfg rounds m .go (.staleProof r p) { m with mem.proof := p } (.discard r discardOps) .none
  | build {r : MainRound} {best : Solution} {i : ℕ} :
      MainStep dx cfg rounds m (.blockhash true) (.blockhash r best i)
        { m with chain := m.chain.build } (.simulate r best i ⟨m.chain.nextTx, r.index⟩) .none
  | invalid {r : MainRound} {best : Solution} {i : ℕ} {tx : MineTx} :
      MainStep dx cfg rounds m (.simulate true) (.simulate r best i tx) m (.discard r discardOps) .none
  | valid {r : MainRound} {best : Solution} {i : ℕ} {tx : MineTx} :
      MainStep dx cfg rounds m (.simulate false) (.simulate r best i tx) m (.send r best i tx 1) .none
  | sent {r : MainRound} {best : Solution} {i attempts : ℕ} {tx : MineTx} :
      MainStep dx cfg rounds m (.send true) (.send r best i tx attempts)
        { m with chain := m.chain.send tx } (.poll r best i tx) (.watch ⟨tx.id, r.old, false, .top⟩)
  | resend {r : MainRound} {best : Solution} {i attempts : ℕ} {tx : MineTx} :
      MainStep dx cfg rounds m (.send false) (.send r best i tx attempts)
        { m with chain := m.chain.send tx } (.send r best i tx (attempts + 1)) .none
  | abandon {r : MainRound} {best : Solution} {i attempts : ℕ} {tx : MineTx} :
      maxSendAttempts ≤ attempts + 1 →
      MainStep dx cfg rounds m (.send false) (.send r best i tx attempts)
        { m with chain := m.chain.send tx } (.discard r discardOps) .none
  | pending {r : MainRound} {best : Solution} {i : ℕ} {tx : MineTx} :
      MainStep dx cfg rounds m (.status .pending) (.poll r best i tx) m (.poll r best i tx) .none
  | finalized {r : MainRound} {best : Solution} {i : ℕ} {tx : MineTx} {ok : Bool} :
      ⟨tx, ok⟩ ∈ m.chain.landed →
      MainStep dx cfg rounds m (.status (.finalized ok)) (.poll r best i tx) m (.stop r best i tx ok) .none
  | expire {r : MainRound} {best : Solution} {i : ℕ} {tx : MineTx} :
      MainStep dx cfg rounds m .expire (.poll r best i tx) m (.stop r best i tx false) .none
  | success {r : MainRound} {best : Solution} {i : ℕ} {tx : MineTx} :
      MainStep dx cfg rounds m .go (.stop r best i tx true) m (.readProof r)
        (.stop tx.id (some (r.payout dx best tx)))
  | failed {r : MainRound} {best : Solution} {i : ℕ} {tx : MineTx} :
      MainStep dx cfg rounds m .go (.stop r best i tx false) m (.attempt r (i + 1)) (.stop tx.id none)
  | check {i : MainInput} {pc pc' : MainPc} {r : MainRound} :
      pc.mined? = some r → pc'.mined? = some r → MainStep dx cfg rounds m i pc m pc' .none
  | enterRpc {r : MainRound} {latest p : Proof} :
      r.old.challenge ≠ p.challenge →
      MainStep dx cfg rounds m (.getProof (some p)) (.getProof r latest) m (.enter (mainRpcReset latest p)) .none
  | upToDate {r : MainRound} {latest : Proof} :
      latest.challenge = m.mem.epochHashes.challenge →
      MainStep dx cfg rounds m .go (.compareEpoch r latest) m .top .none
  | enterWs {r : MainRound} {latest : Proof} :
      latest.challenge ≠ m.mem.epochHashes.challenge →
      MainStep dx cfg rounds m .go (.compareEpoch r latest) m (.enter (mainWsReset latest)) .none
  | enterOp {o : CallOutcome} {op : EpochOp} {ops : List EpochOp} :
      MainStep dx cfg rounds m (.op o) (.enter (op :: ops)) { m with mem := (op.exec cfg o m.mem).1 }
        (.enter ((op.exec cfg o m.mem).2 ++ ops)) (.op op)
  | entered : MainStep dx cfg rounds m .go (.enter []) m .top .none
  | discardOp {o : CallOutcome} {r : MainRound} {op : EpochOp} {ops : List EpochOp} :
      MainStep dx cfg rounds m (.op o) (.discard r (op :: ops)) { m with mem := (op.exec cfg o m.mem).1 }
        (.discard r ((op.exec cfg o m.mem).2 ++ ops)) (.op op)
  | discarded {r : MainRound} : MainStep dx cfg rounds m .go (.discard r []) m .top .none

theorem MainPc.step_sound {dx : Drillx} {cfg : RowId} {now : ℤ} {rounds : ℕ} {m m' : MainMemory} {i : MainInput}
    {pc pc' : MainPc} {ev : MainEvent} (h : pc.step dx cfg now rounds m i = some (m', pc', ev)) :
    MainStep dx cfg rounds m i pc m' pc' ev := by
  unfold MainPc.step at h
  split at h
  · cases h
    exact .wait rfl rfl
  · cases h
    exact .wait rfl (by split <;> rfl)
  · cases h
    exact .wait rfl (by split <;> rfl)
  · cases h
    exact .close
  · cases h
    exact .snapshot rfl
  · split at h
    · next hmax =>
      cases h
      exact .exhausted hmax
    · split at h <;> cases h
      exact .prepare rfl rfl
  · split at h
    · cases h
    · split at h
      · cases h
      · cases h
        exact .prepare rfl rfl
      · split at h <;> cases h <;> exact .prepare rfl rfl
  · cases h
    exact .stale
  · next ok r best i =>
    cases ok <;> cases h
    · exact .prepare rfl rfl
    · exact .build
  · next invalidHash r best i tx =>
    cases invalidHash <;> cases h
    · exact .valid
    · exact .invalid
  · next ok r best i tx attempts =>
    cases ok with
    | true =>
      cases h
      exact .sent
    | false =>
      simp only [Bool.false_eq_true, if_false] at h
      split at h
      · next hmax =>
        cases h
        exact .abandon hmax
      · cases h
        exact .resend
  · cases h
    exact .pending
  · split at h
    · next hmem =>
      cases h
      exact .finalized hmem
    · cases h
  · cases h
    exact .expire
  · cases h
    exact .success
  · cases h
    exact .failed
  · cases h
    exact .check rfl (by split <;> rfl)
  · next answer r latest =>
    cases answer with
    | none =>
      cases h
      exact .check rfl rfl
    | some p =>
      cases h
      split
      · next hne => exact .enterRpc hne
      · exact .check rfl rfl
  · next r latest =>
    cases h
    split
    · next he => exact .upToDate he
    · next hne => exact .enterWs hne
  · cases h
    exact .entered
  · cases h
    exact .enterOp
  · cases h
    exact .discarded
  · cases h
    exact .discardOp
  · cases h

/-- The main loop gets hold of a round only with its snapshot. -/
theorem MainStep.round? {dx : Drillx} {cfg : RowId} {rounds : ℕ} {m m' : MainMemory} {i : MainInput}
    {pc pc' : MainPc} {ev : MainEvent} (h : MainStep dx cfg rounds m i pc m' pc' ev) {r : MainRound}
    (hr : pc'.round? = some r) : pc.round? = some r ∨ ev = .snapshot r := by
  cases h with
  | wait _ hw => rw [MainPc.round?_of_waiting hw] at hr; cases hr
  | snapshot => cases hr; exact Or.inr rfl
  | prepare hp hp' =>
    rw [MainPc.round?_of_preparing? hp'] at hr
    exact Or.inl (hr ▸ MainPc.round?_of_preparing? hp)
  | check hm hm' =>
    rw [MainPc.round?_of_mined? hm'] at hr
    exact Or.inl (hr ▸ MainPc.round?_of_mined? hm)
  | close | enterRpc | upToDate | enterWs | enterOp | entered | discarded => cases hr
  | _ => exact Or.inl hr

/-- A watcher starts at its top. -/
theorem MainStep.watcher_top {dx : Drillx} {cfg : RowId} {rounds : ℕ} {m m' : MainMemory} {i : MainInput}
    {pc pc' : MainPc} {w : Watcher} (h : MainStep dx cfg rounds m i pc m' pc' (.watch w)) : w.pc = .top := by
  cases h
  rfl

/-- The main loop comes to its snapshot from the close. -/
theorem MainStep.closed_of_atSnapshot {dx : Drillx} {cfg : RowId} {rounds : ℕ} {m m' : MainMemory} {i : MainInput}
    {pc pc' : MainPc} {ev : MainEvent} (h : MainStep dx cfg rounds m i pc m' pc' ev)
    (hat : pc'.atSnapshot = true) : m'.mem.closed = true := by
  cases h with
  | close => rfl
  | wait _ hw => cases pc' <;> simp [MainPc.atSnapshot, MainPc.waiting] at hat hw
  | prepare _ hp => cases pc' <;> simp [MainPc.atSnapshot, MainPc.preparing?] at hat hp
  | check _ hm => cases pc' <;> simp [MainPc.atSnapshot, MainPc.mined?] at hat hm
  | _ => cases hat

/-! ### Watchers -/

/-- The transitions of a watcher, with the place it goes to and the operation it executes. -/
inductive WatcherStep (cfg : RowId) (m : EpochMemory) (w : Watcher) :
    WatcherInput → EpochMemory → WatcherPc → Option EpochOp → Prop
  | move {i : WatcherInput} {pc : WatcherPc} :
      w.pc.ops = [] → pc.ops = [] → WatcherStep cfg m w i m pc none
  | enterWs :
      w.pc = .readProof → w.old.challenge ≠ m.proof.challenge →
      WatcherStep cfg m w .go m (.enter (watcherWsReset w.old m.proof)) none
  | enterRpc {p : Proof} :
      w.pc = .getProof → w.old.challenge ≠ p.challenge →
      WatcherStep cfg m w (.getProof (some p)) m (.enter (watcherRpcReset w.old p)) none
  | op {o : CallOutcome} {op : EpochOp} {ops : List EpochOp} :
      w.pc = .enter (op :: ops) →
      WatcherStep cfg m w (.op o) (op.exec cfg o m).1 (.enter ((op.exec cfg o m).2 ++ ops)) (some op)

theorem Watcher.step_sound {cfg : RowId} {m m' : EpochMemory} {w w' : Watcher} {i : WatcherInput}
    {op : Option EpochOp} (h : w.step cfg m i = some (m', w', op)) :
    WatcherStep cfg m w i m' w'.pc op ∧ w' = { w with pc := w'.pc } := by
  unfold Watcher.step at h
  split at h
  · split at h
    · next hpc =>
      cases h
      refine ⟨.move (by rw [hpc]; rfl) ?_, rfl⟩
      show WatcherPc.ops (if w.stopped then .done else .readProof) = []
      split <;> rfl
    · next hpc =>
      cases h
      refine ⟨?_, rfl⟩
      show WatcherStep cfg m w .go m
        (if w.old.challenge = m.proof.challenge then .getProof else .enter (watcherWsReset w.old m.proof)) none
      split
      · exact .move (by rw [hpc]; rfl) rfl
      · next hne => exact .enterWs hpc hne
    · next hpc =>
      cases h
      exact ⟨.move (by rw [hpc]; rfl) rfl, rfl⟩
    · cases h
  · next answer =>
    split at h
    · next hpc =>
      cases h
      refine ⟨?_, rfl⟩
      cases answer with
      | none => exact .move (by rw [hpc]; rfl) rfl
      | some p =>
        show WatcherStep cfg m w _ m
          (if w.old.challenge ≠ p.challenge then .enter (watcherRpcReset w.old p) else .top) none
        split
        · next hne => exact .enterRpc hpc hne
        · exact .move (by rw [hpc]; rfl) rfl
    · cases h
  · split at h
    · next hpc =>
      cases h
      exact ⟨.op hpc, rfl⟩
    · cases h

/-! ### Handlers -/

/-- The transitions of a handler. -/
inductive HandlerStep (dx : Drillx) (msg : BestSolution) (m : EpochMemory) :
    HandlerPc → EpochMemory → HandlerPc → Prop
  | late : m.closed = true → HandlerStep dx msg m .window m (.done .late)
  | inTime : m.closed = false → HandlerStep dx msg m .window m .ranges
  | refuse {pc : HandlerPc} {e : HandlerEnd} :
      pc.sawOpen → (∀ minerId validated, pc ≠ .write minerId validated) → e ≠ .written →
      (e = .notBetter → ∃ old, m.epochHashes.submissions.lookup msg.uuid = some old ∧
        dx.difficulty msg.solution ≤ old.suppliedDiff) →
      HandlerStep dx msg m pc m (.done e)
  | ranges {nonceRanges : List NonceRange} :
      m.clientNonceRanges.lookup msg.uuid = some nonceRanges →
      (nonceRanges.any fun r => r.contains msg.solution.nonce) → HandlerStep dx msg m .ranges m .socket
  | socket {conn : AppClientConnection} :
      m.sockets.lookup msg.addr = some conn → HandlerStep dx msg m .socket m (.proof conn.minerId)
  | proof {minerId : MinerId} :
      dx.isValid msg.solution m.proof.challenge → minDiff ≤ dx.difficulty msg.solution →
      HandlerStep dx msg m (.proof minerId) m (.read minerId m.proof.challenge)
  | read {minerId : MinerId} {validated : Challenge} :
      (∀ old, m.epochHashes.submissions.lookup msg.uuid = some old →
        old.suppliedDiff < dx.difficulty msg.solution) →
      HandlerStep dx msg m (.read minerId validated) m (.write minerId validated)
  | write {minerId : MinerId} {validated : Challenge} :
      HandlerStep dx msg m (.write minerId validated)
        { m with epochHashes := m.epochHashes.accept msg (msg.submission dx minerId) } (.done .written)

theorem HandlerPc.step_sound {dx : Drillx} {msg : BestSolution} {m m' : EpochMemory} {pc pc' : HandlerPc}
    (h : pc.step dx msg m = some (m', pc')) : HandlerStep dx msg m pc m' pc' := by
  unfold HandlerPc.step at h
  split at h
  · cases h
    split
    · next hc => exact .late hc
    · next hc => exact .inTime (by simpa using hc)
  · split at h
    · cases h
      exact .refuse rfl (by simp) (by simp) (by simp)
    · next nonceRanges hr =>
      cases h
      split
      · next hin => exact .ranges hr hin
      · exact .refuse rfl (by simp) (by simp) (by simp)
  · split at h
    · cases h
      exact .refuse rfl (by simp) (by simp) (by simp)
    · next conn hc =>
      cases h
      exact .socket hc
  · split at h
    · next hv =>
      split at h <;> cases h
      · next hd => exact .proof hv hd
      · exact .refuse rfl (by simp) (by simp) (by simp)
    · cases h
      exact .refuse rfl (by simp) (by simp) (by simp)
  · split at h
    · next old ho =>
      split at h <;> cases h
      · next hlt => exact .read fun old' h' => by rw [ho] at h'; cases h'; exact hlt
      · next hlt => exact .refuse rfl (by simp) (by simp) fun _ => ⟨old, ho, UInt32.not_lt.1 hlt⟩
    · next hn =>
      cases h
      exact .read fun old' h' => by rw [hn] at h'; cases h'
  · cases h
    exact .write
  · cases h

/-! ### The system -/

namespace Mining

variable {su : MiningSetup} {s s' : Mining} {a : Action}

section Event

variable (s) (m : EpochMemory) (ev : MainEvent)

@[simp] theorem event_chain : (s.event m ev).chain = s.chain := by cases ev <;> rfl

@[simp] theorem event_main : (s.event m ev).main = s.main := by cases ev <;> rfl

@[simp] theorem event_mem : (s.event m ev).mem = s.mem := by cases ev <;> rfl

@[simp] theorem event_handlers : (s.event m ev).handlers = s.handlers := by cases ev <;> rfl

@[simp] theorem event_tracker : (s.event m ev).tracker = s.tracker := by cases ev <;> rfl

@[simp] theorem event_messages : (s.event m ev).messages = s.messages := by cases ev <;> rfl

end Event

/-- A watcher after a step of the main loop is new, or stands where it stood. -/
theorem watcher_of_event {dx : Drillx} {cfg : RowId} {rounds : ℕ} {m m' : MainMemory} {i : MainInput}
    {pc pc' : MainPc} {ev : MainEvent} (h : MainStep dx cfg rounds m i pc m' pc' ev) {m₀ : EpochMemory} {w : Watcher}
    (hw : w ∈ (s.event m₀ ev).watchers) : w.pc = .top ∨ ∃ w₀ ∈ s.watchers, w₀.pc = w.pc := by
  cases ev with
  | watch w₀ =>
    rcases List.mem_append.1 hw with hw | hw
    · exact Or.inr ⟨w, hw, rfl⟩
    · rw [List.mem_singleton.1 hw]
      exact Or.inl h.watcher_top
  | stop txId paid =>
    obtain ⟨w₀, hw₀, rfl⟩ := List.mem_map.1 hw
    refine Or.inr ⟨w₀, hw₀, ?_⟩
    unfold stopWatcher
    split <;> rfl
  | _ => exact Or.inr ⟨w, hw, rfl⟩

/-- The operation that an action executes. -/
def nextOp? (s : Mining) : Action → Option EpochOp
  | .main (.op _) => s.main.ops.head?
  | .watcher k (.op _) => s.watchers[k]?.bind fun w => w.pc.ops.head?
  | _ => none

inductive Step (su : MiningSetup) (s : Mining) : Action → Mining → Prop
  | tick : Step su s .tick { s with now := s.now + 1 }
  | main {input : MainInput} {m : MainMemory} {pc : MainPc} {ev : MainEvent} :
      MainStep su.drillx su.config.poolId s.history.rounds.length ⟨s.mem, s.chain⟩ input s.main m pc ev →
      Step su s (.main input) ({ s with mem := m.mem, chain := m.chain, main := pc }.event s.mem ev)
  | watcher {k : ℕ} {input : WatcherInput} {w : Watcher} {m : EpochMemory} {pc : WatcherPc}
      {op : Option EpochOp} :
      s.watchers[k]? = some w → WatcherStep su.config.poolId s.mem w input m pc op →
      Step su s (.watcher k input) { s with
        mem := m
        watchers := s.watchers.set k { w with pc := pc }
        history := op.elim s.history fun op => s.history.exec s.mem op }
  | notify {p : Proof} {t : TrackerPc} :
      s.tracker.notify p s.mem = some t → Step su s (.notify p) { s with tracker := t }
  | track {p : Proof} :
      s.tracker = .write p → Step su s .track { s with mem.proof := p, tracker := .idle }
  | message {msg : BestSolution} : Step su s (.message msg) { s with handlers := s.handlers ++ [(msg, .window)] }
  | handler {k : ℕ} {msg : BestSolution} {pc pc' : HandlerPc} {m : EpochMemory} :
      s.handlers[k]? = some (msg, pc) → HandlerStep su.drillx msg s.mem pc m pc' →
      Step su s (.handler k) { s with
        mem := m
        handlers := s.handlers.set k (msg, pc')
        history := s.history.accept msg pc }
  | payout {k : ℕ} {input : PayoutInput} {r : Round} {pc pc' : PayoutPc} {db : Database}
      {msgs : List MessageInternalMineSuccess} :
      s.payouts[k]? = some (r, pc) → pc.step su.fmt su.config r s.mem.db input = some (db, pc', msgs) →
      Step su s (.payout k input) { s with
        mem.db := db
        payouts := s.payouts.set k (r, pc')
        messages := s.messages ++ msgs.map fun msg => (r.sig, msg) }
  | land {tx : MineTx} {ok : Bool} {c : MineChain} :
      s.chain.land? tx ok = some c → Step su s (.land tx ok) { s with chain := c }
  | connections {sockets : Sockets} : Step su s (.connections sockets) { s with mem.sockets := sockets }
  | nonceRanges {nonce : UInt64} {ranges : HashMap Uuid (List NonceRange)} :
      Step su s (.nonceRanges nonce ranges) { s with mem.nonce := nonce, mem.clientNonceRanges := ranges }
  | database {db : Database} : Step su s (.database db) { s with mem.db := db }

theorem step_sound (h : step su s a = some s') : Step su s a s' := by
  cases a with
  | tick => cases h; exact .tick
  | main input =>
    simp only [step, stepMain, Option.bind_eq_bind, Option.bind_eq_some_iff, Option.pure_def, Option.some.injEq] at h
    obtain ⟨⟨m, pc, ev⟩, hstep, rfl⟩ := h
    exact .main (MainPc.step_sound hstep)
  | watcher k input =>
    simp only [step, stepWatcher, Option.bind_eq_bind, Option.bind_eq_some_iff, Option.pure_def,
      Option.some.injEq] at h
    obtain ⟨w, hw, ⟨m, w', op⟩, hstep, rfl⟩ := h
    obtain ⟨hw', he⟩ := Watcher.step_sound hstep
    rw [he]
    exact .watcher hw hw'
  | notify p =>
    obtain ⟨t, ht, rfl⟩ := Option.map_eq_some_iff.1 h
    exact .notify ht
  | track =>
    obtain ⟨⟨m, t⟩, ht, rfl⟩ := Option.map_eq_some_iff.1 h
    unfold TrackerPc.track at ht
    split at ht
    · cases ht
    · next htr =>
      cases ht
      exact .track htr
  | message msg => cases h; exact .message
  | handler k =>
    simp only [step, stepHandler, Option.bind_eq_bind, Option.bind_eq_some_iff, Option.pure_def,
      Option.some.injEq] at h
    obtain ⟨⟨msg, pc⟩, ht, ⟨m, pc'⟩, hstep, rfl⟩ := h
    exact .handler ht (HandlerPc.step_sound hstep)
  | payout k input =>
    simp only [step, stepPayout, Option.bind_eq_bind, Option.bind_eq_some_iff, Option.pure_def,
      Option.some.injEq] at h
    obtain ⟨⟨r, pc⟩, ht, ⟨db, pc', msgs⟩, hstep, rfl⟩ := h
    exact .payout ht hstep
  | land tx ok =>
    obtain ⟨c, hc, rfl⟩ := Option.map_eq_some_iff.1 h
    exact .land hc
  | connections sockets => cases h; exact .connections
  | nonceRanges nonce ranges => cases h; exact .nonceRanges
  | database db => cases h; exact .database

/-! ### What an action does to the epoch -/

/-- The proof that an action writes. -/
def nextProof? (s : Mining) : Action → Option Proof
  | .main .go => match s.main with
    | .staleProof _ p => some p
    | _ => none
  | .track => match s.tracker with
    | .write p => some p
    | .idle => none
  | a => match s.nextOp? a with
    | some (.setProof p) => some p
    | _ => none

theorem nextProof?_of_setProof {p : Proof} (hop : s.nextOp? a = some (.setProof p)) : s.nextProof? a = some p := by
  unfold nextProof?
  split
  · cases hop
  · cases hop
  · rw [hop]

theorem nextOp?_main {input : MainInput} {op : EpochOp} (hop : s.nextOp? (.main input) = some op) :
    s.main.ops.head? = some op := by
  cases input with
  | op o => exact hop
  | _ => cases hop

theorem nextOp?_watcher {k : ℕ} {w : Watcher} {input : WatcherInput} {op : EpochOp} (hw : s.watchers[k]? = some w)
    (hop : s.nextOp? (.watcher k input) = some op) : w.pc.ops.head? = some op := by
  cases input with
  | op o => simpa [nextOp?, hw] using hop
  | _ => cases hop

/-- An action that executes an operation does nothing else to the memory, and nothing to the handlers. -/
theorem Step.exec (h : Step su s a s') {op : EpochOp} (hop : s.nextOp? a = some op) :
    ∃ o, s'.mem = (op.exec su.config.poolId o s.mem).1 ∧ s'.handlers = s.handlers := by
  cases h with
  | @main input m pc ev h =>
    have hhead : s.main.ops.head? = some op := nextOp?_main hop
    rw [event_mem, event_handlers]
    generalize s.main = pc₀ at h hhead
    cases h with
    | @enterOp o op' ops | @discardOp o r op' ops =>
      cases hhead
      exact ⟨o, rfl, rfl⟩
    | wait hw => cases pc₀ <;> first | cases hhead | cases hw
    | prepare hp => rw [MainPc.ops_of_preparing? hp] at hhead; cases hhead
    | check hm => rw [MainPc.ops_of_mined? hm] at hhead; cases hhead
    | _ => cases hhead
  | @watcher k input w m pc op' hw h =>
    have hhead : w.pc.ops.head? = some op := nextOp?_watcher hw hop
    cases h with
    | @op o op' ops hpc =>
      rw [hpc] at hhead
      cases hhead
      exact ⟨o, rfl, rfl⟩
    | move hpc => rw [hpc] at hhead; cases hhead
    | enterWs hpc | enterRpc hpc => rw [hpc] at hhead; cases hhead
  | _ => cases hop

/-- What an action leaves of the memory that executes no operation: it may write a proof or close the window, and only
a handler writes to the submissions. -/
theorem Step.memory (h : Step su s a s') (hop : s.nextOp? a = none) :
    ((∀ k, a ≠ .handler k) → s'.mem.epochHashes = s.mem.epochHashes) ∧
      (s'.mem.proof = s.mem.proof ∨ s.nextProof? a = some s'.mem.proof) ∧
      (s'.mem.closed = true ∨ s'.mem.closed = s.mem.closed) := by
  cases h with
  | @main input m pc ev h =>
    rw [event_mem]
    generalize hpc : s.main = pc₀ at h
    cases h with
    | close => exact ⟨fun _ => rfl, Or.inl rfl, Or.inl rfl⟩
    | stale => exact ⟨fun _ => rfl, Or.inr (by simp [nextProof?, hpc]), Or.inr rfl⟩
    | enterOp | discardOp => simp [nextOp?, hpc, MainPc.ops] at hop
    | _ => exact ⟨fun _ => rfl, Or.inl rfl, Or.inr rfl⟩
  | watcher hw h =>
    cases h with
    | op hpc => simp [nextOp?, hw, hpc, WatcherPc.ops] at hop
    | _ => exact ⟨fun _ => rfl, Or.inl rfl, Or.inr rfl⟩
  | handler _ h =>
    refine ⟨fun ha => absurd rfl (ha _), ?_⟩
    cases h <;> exact ⟨Or.inl rfl, Or.inr rfl⟩
  | track htr => exact ⟨fun _ => rfl, Or.inr (by simp [nextProof?, htr]), Or.inr rfl⟩
  | _ => exact ⟨fun _ => rfl, Or.inl rfl, Or.inr rfl⟩

/-- The proof changes only by an action that writes one. -/
theorem Step.proof (h : Step su s a s') : s'.mem.proof = s.mem.proof ∨ s.nextProof? a = some s'.mem.proof := by
  rcases hop : s.nextOp? a with _ | op
  · exact (h.memory hop).2.1
  · obtain ⟨o, hmem, -⟩ := h.exec hop
    rw [hmem, EpochOp.exec_proof]
    cases op with
    | setProof p => exact Or.inr (nextProof?_of_setProof hop)
    | _ => exact Or.inl rfl

/-- The window is opened only by the operation for it. -/
theorem Step.closed (h : Step su s a s') :
    (s'.mem.closed = true ∨ s'.mem.closed = s.mem.closed) ∨ s.nextOp? a = some .openWindow := by
  rcases hop : s.nextOp? a with _ | op
  · exact Or.inl (h.memory hop).2.2
  · obtain ⟨o, hmem, -⟩ := h.exec hop
    by_cases ho : op = .openWindow
    · exact Or.inr (by rw [ho])
    · exact Or.inl (Or.inr (by rw [hmem, EpochOp.exec_closed ho]))

/-- The submissions change only by a handler or a reset. -/
theorem Step.epochHashes (h : Step su s a s') (ha : ∀ k, a ≠ .handler k) :
    s'.mem.epochHashes = s.mem.epochHashes ∨
      ∃ c c', s.nextOp? a = some (.resetEpoch c) ∧ s'.mem.epochHashes = ⟨c', ⟨none, 0⟩, ∅⟩ := by
  rcases hop : s.nextOp? a with _ | op
  · exact Or.inl ((h.memory hop).1 ha)
  · obtain ⟨o, hmem, -⟩ := h.exec hop
    cases op with
    | resetEpoch c => exact Or.inr ⟨c, _, rfl, by rw [hmem]; rfl⟩
    | _ => exact Or.inl (by rw [hmem, EpochOp.exec_epochHashes rfl])

theorem Step.handlers (h : Step su s a s') (ha : ∀ k, a ≠ .handler k) :
    s'.handlers = s.handlers ∨ ∃ msg, s'.handlers = s.handlers ++ [(msg, .window)] := by
  cases h with
  | main => exact Or.inl (event_handlers ..)
  | message => exact Or.inr ⟨_, rfl⟩
  | handler => exact absurd rfl (ha _)
  | _ => exact Or.inl rfl

/-- Where the handlers after a step come from. -/
theorem Step.mem_handlers (h : Step su s a s') {t : BestSolution × HandlerPc} (ht : t ∈ s'.handlers) :
    t ∈ s.handlers ∨ (∃ msg, a = .message msg ∧ t = (msg, .window)) ∨
      ∃ k pc, a = .handler k ∧ s.handlers[k]? = some (t.1, pc) ∧ HandlerStep su.drillx t.1 s.mem pc s'.mem t.2 := by
  cases h with
  | main =>
    rw [event_handlers] at ht
    exact Or.inl ht
  | message =>
    rcases List.mem_append.1 ht with ht | ht
    · exact Or.inl ht
    · exact Or.inr (Or.inl ⟨_, rfl, List.mem_singleton.1 ht⟩)
  | handler hk hstep =>
    rcases List.mem_or_eq_of_mem_set ht with ht | rfl
    · exact Or.inl ht
    · exact Or.inr (Or.inr ⟨_, _, rfl, hk, hstep⟩)
  | _ => exact Or.inl ht

/-- Where the entries after a step come from. -/
theorem Step.entry (h : Step su s a s') {uuid : Uuid} {sub : InternalMessageSubmission}
    (hsub : s'.mem.epochHashes.submissions.lookup uuid = some sub) :
    s.mem.epochHashes.submissions.lookup uuid = some sub ∨ ∃ msg minerId validated,
      (msg, .write minerId validated) ∈ s.handlers ∧ msg.uuid = uuid ∧ sub = msg.submission su.drillx minerId := by
  by_cases ha : ∃ k, a = .handler k
  · obtain ⟨k, rfl⟩ := ha
    cases h with
    | handler hk hstep =>
      cases hstep with
      | write =>
        rcases lookup_insert_cases hsub with ⟨rfl, rfl⟩ | ⟨-, hsub⟩
        · exact Or.inr ⟨_, _, _, List.mem_of_getElem? hk, rfl, rfl⟩
        · exact Or.inl hsub
      | _ => exact Or.inl hsub
  · rcases h.epochHashes fun k hk => ha ⟨k, hk⟩ with he | ⟨c, c', -, he⟩ <;> rw [he] at hsub
    · exact Or.inl hsub
    · cases hsub

private theorem exec_sockets {cfg : RowId} {o : CallOutcome} {m : EpochMemory} {op : EpochOp} :
    (op.exec cfg o m).1.sockets = m.sockets := by
  cases op with
  | addChallenge | verifyChallenge =>
    simp only [EpochOp.exec]
    split <;> rfl
  | _ => rfl

/-- No mining task changes the connections. -/
theorem Step.sockets (h : Step su s a s') (ha : ∀ sockets, a ≠ .connections sockets) :
    s'.mem.sockets = s.mem.sockets := by
  cases h with
  | @main input m pc ev h =>
    rw [event_mem]
    generalize s.main = pc₀ at h
    cases h with
    | enterOp | discardOp => exact exec_sockets
    | _ => rfl
  | watcher _ h =>
    cases h with
    | op => exact exec_sockets
    | _ => rfl
  | handler _ h => cases h <;> rfl
  | connections => exact absurd rfl (ha _)
  | _ => rfl

end Mining

end BitzPool
