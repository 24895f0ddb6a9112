import BitzPool.Lib.Maxima
import BitzPool.BestKept
import BitzPool.Payout

/-!
# Payouts and the order of messages

Handlers that run one after another (`handleAll`) offer their solutions to a map that keeps the first of the best for each
uuid.  In which order they come decides whose nonce is kept, and which solution is the best one among equals; the
difficulties, the hashpowers and with them the payout of every uuid are the same in every order (`order_irrelevant`).
-/

namespace BitzPool

open Transition

/-! ### Handlers that are left alone -/

/-- A handler that is left alone, for at most so many steps. -/
def HandlerPc.finish (dx : Drillx) (msg : BestSolution) : ℕ → EpochMemory → HandlerPc → EpochMemory × HandlerPc
  | 0, m, pc => (m, pc)
  | n + 1, m, pc =>
    match pc.step dx msg m with
    | some (m', pc') => finish dx msg n m' pc'
    | none => (m, pc)

/-- The steps of a handler that writes. -/
def handlerSteps : ℕ := 6

/-- The memory after the handler of a message, left alone until it ends. -/
def BestSolution.handle (dx : Drillx) (m : EpochMemory) (msg : BestSolution) : EpochMemory :=
  (HandlerPc.finish dx msg handlerSteps m .window).1

/-- The handlers of the messages, one after another. -/
def handleAll (dx : Drillx) (m : EpochMemory) (msgs : List BestSolution) : EpochMemory :=
  msgs.foldl (BestSolution.handle dx) m

/-- The solution passes the checks of a handler that has found the window open. -/
structure BestSolution.Admissible (dx : Drillx) (m : EpochMemory) (msg : BestSolution) : Prop where
  inRange : ∃ nonceRanges ∈ m.clientNonceRanges.lookup msg.uuid,
    nonceRanges.any (fun r => r.contains msg.solution.nonce) = true
  connected : (m.sockets.lookup msg.addr).isSome = true
  valid : dx.isValid msg.solution m.proof.challenge = true
  minDiff : minDiff ≤ dx.difficulty msg.solution

instance (dx : Drillx) (m : EpochMemory) (msg : BestSolution) : Decidable (msg.Admissible dx m) :=
  decidable_of_iff
    ((∃ nonceRanges ∈ m.clientNonceRanges.lookup msg.uuid,
        nonceRanges.any (fun r => r.contains msg.solution.nonce) = true) ∧
      (m.sockets.lookup msg.addr).isSome = true ∧ dx.isValid msg.solution m.proof.challenge = true ∧
      BitzPool.minDiff ≤ dx.difficulty msg.solution)
    ⟨fun ⟨h1, h2, h3, h4⟩ => ⟨h1, h2, h3, h4⟩, fun ⟨h1, h2, h3, h4⟩ => ⟨h1, h2, h3, h4⟩⟩

/-- An admissible solution, with the miner of its connection. -/
def BestSolution.admitted? (dx : Drillx) (m : EpochMemory) (msg : BestSolution) : Option (BestSolution × MinerId) :=
  if msg.Admissible dx m then (m.sockets.lookup msg.addr).map fun conn => (msg, conn.minerId) else none

/-- What the handler of an admissible solution makes of the epoch, if it is left alone. -/
def EpochHashes.offer (dx : Drillx) (e : EpochHashes) (x : BestSolution × MinerId) : EpochHashes :=
  match e.submissions.lookup x.1.uuid with
  | some old => if old.suppliedDiff < dx.difficulty x.1.solution then e.accept x.1 (x.1.submission dx x.2) else e
  | none => e.accept x.1 (x.1.submission dx x.2)

variable {dx : Drillx} {m : EpochMemory} {msg : BestSolution}

/-- From the read on. -/
theorem finish_read (dx : Drillx) (m : EpochMemory) (msg : BestSolution) (minerId : MinerId) (validated : Challenge) :
    ∃ e, HandlerPc.finish dx msg 2 m (.read minerId validated) =
      ({ m with epochHashes := m.epochHashes.offer dx (msg, minerId) }, .done e) := by
  rcases hold : m.epochHashes.submissions.lookup msg.uuid with _ | old
  · exact ⟨.written, by simp only [HandlerPc.finish, HandlerPc.step, EpochHashes.offer, hold]⟩
  · by_cases hlt : old.suppliedDiff < dx.difficulty msg.solution
    · exact ⟨.written, by simp only [HandlerPc.finish, HandlerPc.step, EpochHashes.offer, hold, if_pos hlt]⟩
    · exact ⟨.notBetter, by simp only [HandlerPc.finish, HandlerPc.step, EpochHashes.offer, hold, if_neg hlt]⟩

/-- From the check of the proof on. -/
theorem finish_proof (dx : Drillx) (m : EpochMemory) (msg : BestSolution) (minerId : MinerId) :
    ∃ e, HandlerPc.finish dx msg 3 m (.proof minerId) =
      (if dx.isValid msg.solution m.proof.challenge = true ∧ minDiff ≤ dx.difficulty msg.solution then
        { m with epochHashes := m.epochHashes.offer dx (msg, minerId) } else m, .done e) := by
  by_cases hvalid : dx.isValid msg.solution m.proof.challenge = true
  · by_cases hmin : minDiff ≤ dx.difficulty msg.solution
    · obtain ⟨e, he⟩ := finish_read dx m msg minerId m.proof.challenge
      refine ⟨e, ?_⟩
      rw [if_pos ⟨hvalid, hmin⟩, ← he]
      simp only [HandlerPc.finish, HandlerPc.step, if_pos hvalid, if_pos hmin]
    · refine ⟨.lowDiff, ?_⟩
      rw [if_neg fun h => hmin h.2]
      simp only [HandlerPc.finish, HandlerPc.step, if_pos hvalid, if_neg hmin]
  · refine ⟨.invalid, ?_⟩
    rw [if_neg fun h => hvalid h.1]
    simp only [HandlerPc.finish, HandlerPc.step, if_neg hvalid]

/-- A handler that is left alone ends.  If it finds the window open, it offers the solution when that is admissible, and does
nothing otherwise. -/
theorem finish_window (dx : Drillx) (m : EpochMemory) (msg : BestSolution) :
    ∃ e, HandlerPc.finish dx msg handlerSteps m .window =
      (if m.closed then m
        else { m with epochHashes := (msg.admitted? dx m).elim m.epochHashes (m.epochHashes.offer dx) }, .done e) := by
  have hrefuse : ¬ msg.Admissible dx m →
      { m with epochHashes := (msg.admitted? dx m).elim m.epochHashes (m.epochHashes.offer dx) } = m := by
    intro h
    rw [BestSolution.admitted?, if_neg h]
    rfl
  by_cases hclosed : m.closed = true
  · exact ⟨.late, by simp [HandlerPc.finish, HandlerPc.step, handlerSteps, hclosed]⟩
  rw [if_neg hclosed]
  rcases hranges : m.clientNonceRanges.lookup msg.uuid with _ | nonceRanges
  · refine ⟨.noRange, ?_⟩
    rw [hrefuse fun h => by simpa [hranges] using h.inRange]
    simp [HandlerPc.finish, HandlerPc.step, handlerSteps, hclosed, hranges]
  by_cases hin : nonceRanges.any (fun r => r.contains msg.solution.nonce) = true
  · rcases hconn : m.sockets.lookup msg.addr with _ | conn
    · refine ⟨.noSocket, ?_⟩
      rw [hrefuse fun h => by simpa [hconn] using h.connected]
      simp only [HandlerPc.finish, HandlerPc.step, handlerSteps, if_neg hclosed, hranges, if_pos hin, hconn]
    · obtain ⟨e, he⟩ := finish_proof dx m msg conn.minerId
      refine ⟨e, ?_⟩
      have hsteps : HandlerPc.finish dx msg handlerSteps m .window = HandlerPc.finish dx msg 3 m (.proof conn.minerId) := by
        simp only [HandlerPc.finish, HandlerPc.step, handlerSteps, if_neg hclosed, hranges, if_pos hin, hconn]
      rw [hsteps, he]
      split
      · next hpass =>
        have hadm : msg.Admissible dx m := ⟨⟨_, hranges, hin⟩, by rw [hconn]; rfl, hpass.1, hpass.2⟩
        rw [BestSolution.admitted?, if_pos hadm, hconn]
        rfl
      · next hpass => rw [hrefuse fun h => hpass ⟨h.valid, h.minDiff⟩]
  · refine ⟨.outOfRange, ?_⟩
    rw [hrefuse fun h => by
      obtain ⟨_, hr, hin'⟩ := h.inRange
      cases hranges.symm.trans hr
      exact hin hin']
    simp only [HandlerPc.finish, HandlerPc.step, handlerSteps, if_neg hclosed, hranges, if_neg hin]

theorem handle_eq (hopen : m.closed = false) : BestSolution.handle dx m msg =
    { m with epochHashes := (msg.admitted? dx m).elim m.epochHashes (m.epochHashes.offer dx) } := by
  obtain ⟨e, he⟩ := finish_window dx m msg
  rw [BestSolution.handle, he, hopen]
  rfl

/-- The admissible ones of a list of messages, in order. -/
def admitted (dx : Drillx) (m : EpochMemory) (msgs : List BestSolution) : List (BestSolution × MinerId) :=
  msgs.filterMap (BestSolution.admitted? dx m)

/-- What is admissible does not depend on the submissions. -/
theorem admitted?_epochHashes (e : EpochHashes) (msg : BestSolution) :
    msg.admitted? dx { m with epochHashes := e } = msg.admitted? dx m := by
  have hadm : msg.Admissible dx { m with epochHashes := e } ↔ msg.Admissible dx m := by
    constructor <;> intro h <;> exact ⟨h.inRange, h.connected, h.valid, h.minDiff⟩
  exact if_congr hadm rfl rfl

theorem handleAll_eq (hopen : m.closed = false) (msgs : List BestSolution) :
    handleAll dx m msgs = { m with epochHashes := (admitted dx m msgs).foldl (EpochHashes.offer dx) m.epochHashes } := by
  induction msgs generalizing m with
  | nil => rfl
  | cons msg msgs ih =>
    have hrest : ∀ e : EpochHashes, handleAll dx { m with epochHashes := e } msgs =
        { m with epochHashes := (admitted dx m msgs).foldl (EpochHashes.offer dx) e } := by
      intro e
      have hadmitted : admitted dx { m with epochHashes := e } msgs = admitted dx m msgs :=
        List.filterMap_congr fun msg _ => admitted?_epochHashes e msg
      rw [ih (m := { m with epochHashes := e }) hopen, hadmitted]
    rw [handleAll, List.foldl_cons, handle_eq hopen, ← handleAll, hrest]
    simp only [admitted, List.filterMap_cons]
    cases msg.admitted? dx m <;> rfl

/-- Messages that are not admissible have no effect. -/
theorem handleAll_filter (hopen : m.closed = false) (msgs : List BestSolution) :
    handleAll dx m msgs = handleAll dx m (msgs.filter fun msg => msg.Admissible dx m) := by
  have hfilter : admitted dx m (msgs.filter fun msg => msg.Admissible dx m) = admitted dx m msgs := by
    rw [admitted, List.filterMap_filter]
    refine List.filterMap_congr fun msg _ => ?_
    by_cases hadm : msg.Admissible dx m
    · rw [if_pos (decide_eq_true hadm)]
    · rw [if_neg (by simpa using hadm), BestSolution.admitted?, if_neg hadm]
  rw [handleAll_eq hopen, handleAll_eq hopen, hfilter]

theorem mem_admitted {msgs : List BestSolution} {x : BestSolution × MinerId} :
    x ∈ admitted dx m msgs ↔ x.1 ∈ msgs ∧ x.1.Admissible dx m ∧
      ∃ conn, m.sockets.lookup x.1.addr = some conn ∧ conn.minerId = x.2 := by
  rw [admitted, List.mem_filterMap]
  constructor
  · rintro ⟨msg, hmsg, hx⟩
    unfold BestSolution.admitted? at hx
    split at hx
    · next hadm =>
      obtain ⟨conn, hconn, rfl⟩ := Option.map_eq_some_iff.1 hx
      exact ⟨hmsg, hadm, conn, hconn, rfl⟩
    · cases hx
  · rintro ⟨hmsg, hadm, conn, hconn, hid⟩
    refine ⟨x.1, hmsg, ?_⟩
    rw [BestSolution.admitted?, if_pos hadm, hconn, Option.map_some, hid]

/-- An admissible message has a miner. -/
theorem exists_mem_admitted {msgs : List BestSolution} (hmsg : msg ∈ msgs) (hadm : msg.Admissible dx m) :
    ∃ minerId, (msg, minerId) ∈ admitted dx m msgs := by
  obtain ⟨conn, hconn⟩ := Option.isSome_iff_exists.1 hadm.connected
  exact ⟨conn.minerId, mem_admitted.2 ⟨hmsg, hadm, conn, hconn, rfl⟩⟩

/-! ### The epoch as a map of maxima -/

def InternalMessageSubmission.measure (sub : InternalMessageSubmission) : ℕ := sub.suppliedDiff.toNat

/-- An admissible solution as an offer under its uuid. -/
def keyed (dx : Drillx) (x : BestSolution × MinerId) : Uuid × InternalMessageSubmission :=
  (x.1.uuid, x.1.submission dx x.2)

/-- The entries are the best of the offers, and the best hash has the difficulty of the best entry. -/
structure Gathers (dx : Drillx) (e : EpochHashes) (xs : List (BestSolution × MinerId)) : Prop where
  keeps : Maxima.Keeps InternalMessageSubmission.measure e.submissions (xs.map (keyed dx))
  best : IsLUB (Maxima.measures InternalMessageSubmission.measure e.submissions) e.bestHash.difficulty.toNat

theorem accept_difficulty (e : EpochHashes) (msg : BestSolution) (sub : InternalMessageSubmission) :
    (e.accept msg sub).bestHash.difficulty.toNat = max e.bestHash.difficulty.toNat sub.measure := by
  unfold EpochHashes.accept
  split
  · next hlt => exact (max_eq_right (UInt32.lt_iff_toNat_lt.1 hlt).le).symm
  · next hlt => exact (max_eq_left (UInt32.le_iff_toNat_le.1 (UInt32.not_lt.1 hlt))).symm

theorem Gathers.offer {e : EpochHashes} {xs : List (BestSolution × MinerId)} (h : Gathers dx e xs)
    (x : BestSolution × MinerId) : Gathers dx (e.offer dx x) (xs ++ [x]) := by
  have hkeeps := h.keeps.offer (keyed dx x)
  have hmap : (xs ++ [x]).map (keyed dx) = xs.map (keyed dx) ++ [keyed dx x] := List.map_append
  rw [← hmap] at hkeeps
  by_cases hlt : ∀ old, e.submissions.lookup x.1.uuid = some old → old.measure < (x.1.submission dx x.2).measure
  · have hoffer : e.offer dx x = e.accept x.1 (x.1.submission dx x.2) := by
      unfold EpochHashes.offer
      split
      · next old hold => exact if_pos (UInt32.lt_iff_toNat_lt.2 (hlt old hold))
      · rfl
    rw [Maxima.offer_of_lt hlt] at hkeeps
    rw [hoffer]
    refine ⟨hkeeps, ?_⟩
    rw [accept_difficulty]
    exact Maxima.isLUB_measures_insert h.best hlt
  · push Not at hlt
    obtain ⟨old, hold, hle⟩ := hlt
    have hoffer : e.offer dx x = e := by
      unfold EpochHashes.offer
      rw [hold]
      exact if_neg (UInt32.not_lt.2 (UInt32.le_iff_toNat_le.2 hle))
    rw [Maxima.offer_of_le hold hle] at hkeeps
    rw [hoffer]
    exact ⟨hkeeps, h.best⟩

theorem Gathers.foldl {e : EpochHashes} {xs : List (BestSolution × MinerId)} (h : Gathers dx e xs)
    (ys : List (BestSolution × MinerId)) : Gathers dx (ys.foldl (EpochHashes.offer dx) e) (xs ++ ys) := by
  induction ys generalizing e xs with
  | nil => rwa [List.append_nil]
  | cons y ys ih =>
    have hnext := ih (h.offer y)
    rwa [List.append_assoc, List.singleton_append] at hnext

/-- The epoch has just been reset. -/
structure EpochHashes.Reset (e : EpochHashes) : Prop where
  bestHash : e.bestHash = ⟨none, 0⟩
  submissions : e.submissions = ∅

theorem EpochHashes.Reset.gathers {e : EpochHashes} (h : e.Reset) : Gathers dx e [] where
  keeps := by
    rw [h.submissions]
    exact Maxima.keeps_empty
  best := by
    have hempty : Maxima.measures InternalMessageSubmission.measure e.submissions = ∅ := by
      rw [h.submissions]
      refine Set.eq_empty_iff_forall_notMem.2 ?_
      rintro b ⟨k, hb⟩
      cases hb
    rw [hempty, h.bestHash]
    exact isLUB_empty

theorem handleAll_gathers (hopen : m.closed = false) (hreset : m.epochHashes.Reset) (msgs : List BestSolution) :
    Gathers dx (handleAll dx m msgs).epochHashes (admitted dx m msgs) := by
  rw [handleAll_eq hopen]
  exact hreset.gathers.foldl _

/-! ### The system does the same -/

namespace Mining

/-- Messages with their handlers one after another, the first of them number `k`, each with the number of its steps. -/
def inTurn (k : ℕ) : List (BestSolution × ℕ) → List Action
  | [] => []
  | x :: xs => .message x.1 :: List.replicate x.2 (.handler k) ++ inTurn (k + 1) xs

/-- A handler alone takes the steps of `HandlerPc.finish`. -/
private theorem run_finish (su : MiningSetup) (n : ℕ) {s : Mining} {k : ℕ} {pc : HandlerPc} (hk : s.handlers[k]? = some (msg, pc)) :
    ∃ j s', run (step su) s (List.replicate j (.handler k)) = some s' ∧
      s'.mem = (HandlerPc.finish su.drillx msg n s.mem pc).1 ∧
      s'.handlers = s.handlers.set k (msg, (HandlerPc.finish su.drillx msg n s.mem pc).2) := by
  have hset : s.handlers.set k (msg, pc) = s.handlers := by
    obtain ⟨hlt, hget⟩ := List.getElem?_eq_some_iff.1 hk
    rw [← hget, List.set_getElem_self]
  induction n generalizing s pc with
  | zero => exact ⟨0, s, rfl, rfl, hset.symm⟩
  | succ n ih =>
    rcases hstep : pc.step su.drillx msg s.mem with _ | ⟨m', pc'⟩
    · refine ⟨0, s, rfl, ?_, ?_⟩
      · simp only [HandlerPc.finish, hstep]
      · simp only [HandlerPc.finish, hstep, hset]
    · have hfirst : step su s (.handler k) = some { s with
          mem := m', handlers := s.handlers.set k (msg, pc'), history := s.history.accept msg pc } := by
        simp only [step, stepHandler, hk, hstep, Option.bind_eq_bind, Option.bind_some]
        rfl
      have hlt : k < s.handlers.length := (List.getElem?_eq_some_iff.1 hk).1
      obtain ⟨j, s', hrun, hmem, hhandlers⟩ := ih (s := { s with
        mem := m', handlers := s.handlers.set k (msg, pc'), history := s.history.accept msg pc })
        (List.getElem?_set_self hlt) (List.set_set ..)
      refine ⟨j + 1, s', run_cons.2 ⟨_, hfirst, hrun⟩, ?_, ?_⟩
      · simp only [HandlerPc.finish, hstep, hmem]
      · simp only [HandlerPc.finish, hstep, hhandlers, List.set_set]

/-- The system handles the messages one after another as `handleAll` does. -/
theorem run_inTurn (su : MiningSetup) (s : Mining) (msgs : List BestSolution) :
    ∃ js s', js.length = msgs.length ∧ run (step su) s (inTurn s.handlers.length (msgs.zip js)) = some s' ∧
      s'.mem = handleAll su.drillx s.mem msgs ∧ ∃ ended, s'.handlers = s.handlers ++ ended ∧
        ended.map Prod.fst = msgs ∧ ∀ t ∈ ended, ∃ e, t.2 = .done e := by
  induction msgs generalizing s with
  | nil => exact ⟨[], s, rfl, rfl, rfl, [], (List.append_nil _).symm, rfl, by simp⟩
  | cons msg msgs ih =>
    have hk : (s.handlers ++ [(msg, HandlerPc.window)])[s.handlers.length]? = some (msg, .window) :=
      List.getElem?_concat_length
    obtain ⟨j, t, ht, hmem, hhandlers⟩ :=
      run_finish su handlerSteps (s := { s with handlers := s.handlers ++ [(msg, .window)] }) hk
    obtain ⟨e, he⟩ := finish_window su.drillx s.mem msg
    have hdone : t.handlers = s.handlers ++ [(msg, .done e)] := by
      rw [hhandlers, he]
      simp
    obtain ⟨js, s', hlen, hrun, hmem', ended, hended, hmsgs, hall⟩ := ih t
    have hlength : t.handlers.length = s.handlers.length + 1 := by rw [hdone, List.length_append, List.length_singleton]
    rw [hlength] at hrun
    refine ⟨j :: js, s', by rw [List.length_cons, hlen, List.length_cons], ?_, ?_, (msg, .done e) :: ended, ?_, ?_, ?_⟩
    · exact run_append.2 ⟨t, run_cons.2 ⟨_, rfl, ht⟩, hrun⟩
    · rw [hmem', hmem]
      rfl
    · rw [hended, hdone, List.append_assoc, List.singleton_append]
    · rw [List.map_cons, hmsgs]
    · intro x hx
      rcases List.mem_cons.1 hx with rfl | hx
      · exact ⟨e, rfl⟩
      · exact hall x hx

end Mining

/-! ### Payouts -/

/-- What the payout of a message has for a uuid: the miner, and what it earned if nothing is divided by zero. -/
def MessageInternalMineSuccess.paid? (msg : MessageInternalMineSuccess) (uuid : Uuid) :
    Option (MinerId × Option UInt64) :=
  (msg.submissions.lookup uuid).map fun sub => (sub.minerId, earnedRewards msg sub)

/-- The hashpowers of an entry, on which the totals and the earnings depend. -/
def InternalMessageSubmission.hashpowers (sub : InternalMessageSubmission) : UInt64 × UInt64 :=
  (sub.hashpower, sub.realHashpower)

theorem hashpowerTotals_congr {subs subs' : Submissions}
    (h : ∀ uuid, (subs.lookup uuid).map InternalMessageSubmission.hashpowers =
      (subs'.lookup uuid).map InternalMessageSubmission.hashpowers) : hashpowerTotals subs = hashpowerTotals subs' := by
  have hfold : ∀ subs : Submissions, hashpowerTotals subs =
      (subs.entries.map fun e => (e.1, e.2.hashpowers)).foldl (fun t e => (t.1 + e.2.1, t.2 + e.2.2)) (0, 0) := by
    intro subs
    rw [List.foldl_map]
    rfl
  rw [hfold, hfold]
  have hcomm : ∀ a b c : UInt64, a + b + c = a + c + b := by
    intro a b c
    rw [UInt64.add_assoc, UInt64.add_comm b, ← UInt64.add_assoc]
  exact (Maxima.entries_map_perm h).foldl_eq' (fun x _ y _ t => Prod.ext (hcomm ..) (hcomm ..)) _

theorem earnedRewards_congr {msg msg' : MessageInternalMineSuccess} {sub sub' : InternalMessageSubmission}
    (htotals : (msg.totalHashpower, msg.totalRealHashpower) = (msg'.totalHashpower, msg'.totalRealHashpower))
    (hrewards : msg.totalRewards = msg'.totalRewards) (hsub : sub.hashpowers = sub'.hashpowers) :
    earnedRewards msg sub = earnedRewards msg' sub' := by
  obtain ⟨h1, h2⟩ := Prod.mk.inj htotals
  obtain ⟨h3, h4⟩ := Prod.mk.inj hsub
  simp only [earnedRewards, h1, h2, h3, h4, hrewards]

/-- The entry of a uuid is that of the best of its admissible messages, with the hashpowers of its difficulty. -/
structure HoldsBest (dx : Drillx) (m : EpochMemory) (msgs : List BestSolution) (uuid : Uuid)
    (sub : InternalMessageSubmission) : Prop where
  attained : ∃ msg ∈ msgs, msg.uuid = uuid ∧ msg.Admissible dx m ∧ sub.suppliedDiff = dx.difficulty msg.solution
  highest : ∀ msg ∈ msgs, msg.uuid = uuid → msg.Admissible dx m → dx.difficulty msg.solution ≤ sub.suppliedDiff
  realHashpower : sub.realHashpower = realHashpowerOf sub.suppliedDiff
  hashpower : sub.hashpower = min (realHashpowerOf sub.suppliedDiff) maxCalculatedHashpower

/-- The best difficulty and the hashpower totals are the same, and so are the payouts of the two snapshots for every amount
that is shared out. -/
structure SamePayouts (e e' : EpochHashes) : Prop where
  difficulty : e.bestHash.difficulty = e'.bestHash.difficulty
  totals : hashpowerTotals e.submissions = hashpowerTotals e'.submissions
  paid : ∀ msg msg' : MessageInternalMineSuccess, msg.submissions = e.submissions → msg'.submissions = e'.submissions →
    msg.TotalsComputed → msg'.TotalsComputed → msg.totalRewards = msg'.totalRewards →
    ∀ uuid, msg.paid? uuid = msg'.paid? uuid

/-- Messages with one uuid come from one address. -/
def OneAddress (msgs : List BestSolution) : Prop :=
  ∀ msg ∈ msgs, ∀ msg' ∈ msgs, msg.uuid = msg'.uuid → msg.addr = msg'.addr

instance (msgs : List BestSolution) : Decidable (OneAddress msgs) :=
  inferInstanceAs (Decidable (∀ msg ∈ msgs, ∀ msg' ∈ msgs, msg.uuid = msg'.uuid → msg.addr = msg'.addr))

variable {msgs msgs' : List BestSolution}

private theorem mem_keyed {uuid : Uuid} {sub : InternalMessageSubmission}
    (h : (uuid, sub) ∈ (admitted dx m msgs).map (keyed dx)) :
    ∃ msg ∈ msgs, msg.uuid = uuid ∧ msg.Admissible dx m ∧
      ∃ conn, m.sockets.lookup msg.addr = some conn ∧ sub = msg.submission dx conn.minerId := by
  obtain ⟨x, hx, hkey⟩ := List.mem_map.1 h
  obtain ⟨hmsg, hadm, conn, hconn, hid⟩ := mem_admitted.1 hx
  cases hkey
  exact ⟨x.1, hmsg, rfl, hadm, conn, hconn, by rw [hid]⟩

private theorem Gathers.holdsBest {e : EpochHashes} (h : Gathers dx e (admitted dx m msgs)) {uuid : Uuid}
    {sub : InternalMessageSubmission} (hsub : e.submissions.lookup uuid = some sub) : HoldsBest dx m msgs uuid sub := by
  obtain ⟨msg, hmsg, huuid, hadm, conn, -, rfl⟩ := mem_keyed (h.keeps.offered hsub)
  refine ⟨⟨msg, hmsg, huuid, hadm, rfl⟩, fun msg' hmsg' huuid' hadm' => ?_, rfl, rfl⟩
  obtain ⟨minerId, hmem⟩ := exists_mem_admitted hmsg' hadm'
  obtain ⟨sub', hsub', hle⟩ := h.keeps.highest (List.mem_map_of_mem hmem)
  have hkey : (msg', minerId).1.uuid = uuid := huuid'
  rw [hkey] at hsub'
  cases hsub.symm.trans hsub'
  exact UInt32.le_iff_toNat_le.2 hle

/-- With one address for each uuid, the difficulty decides the miner and the hashpowers of an entry. -/
private theorem eq_of_measure_eq (hone : OneAddress msgs) {uuid : Uuid} {sub sub' : InternalMessageSubmission}
    (h : (uuid, sub) ∈ (admitted dx m msgs).map (keyed dx)) (h' : (uuid, sub') ∈ (admitted dx m msgs).map (keyed dx))
    (heq : sub.measure = sub'.measure) : (sub.minerId, sub.hashpowers) = (sub'.minerId, sub'.hashpowers) := by
  obtain ⟨msg, hmsg, huuid, -, conn, hconn, rfl⟩ := mem_keyed h
  obtain ⟨msg', hmsg', huuid', -, conn', hconn', rfl⟩ := mem_keyed h'
  have haddr : msg.addr = msg'.addr := hone msg hmsg msg' hmsg' (huuid.trans huuid'.symm)
  rw [haddr] at hconn
  cases hconn.symm.trans hconn'
  have hdiff : dx.difficulty msg.solution = dx.difficulty msg'.solution := UInt32.toNat_inj.1 heq
  simp only [BestSolution.submission, InternalMessageSubmission.hashpowers, hdiff]

private theorem Gathers.samePayouts {e e' : EpochHashes} (h : Gathers dx e (admitted dx m msgs))
    (h' : Gathers dx e' (admitted dx m msgs')) (hperm : msgs.Perm msgs') (hone : OneAddress msgs) : SamePayouts e e' := by
  have hoffers : ∀ x, x ∈ (admitted dx m msgs).map (keyed dx) ↔ x ∈ (admitted dx m msgs').map (keyed dx) := fun _ =>
    ((hperm.filterMap _).map _).mem_iff
  have hentry : ∀ uuid, (e.submissions.lookup uuid).map (fun sub => (sub.minerId, sub.hashpowers)) =
      (e'.submissions.lookup uuid).map fun sub => (sub.minerId, sub.hashpowers) := fun uuid =>
    h.keeps.map_lookup_eq h'.keeps hoffers (fun hv hw => eq_of_measure_eq hone hv hw) uuid
  have hhashpowers : ∀ uuid, (e.submissions.lookup uuid).map InternalMessageSubmission.hashpowers =
      (e'.submissions.lookup uuid).map InternalMessageSubmission.hashpowers := by
    intro uuid
    have hsnd := congrArg (Option.map Prod.snd) (hentry uuid)
    rwa [Option.map_map, Option.map_map] at hsnd
  have htotals : hashpowerTotals e.submissions = hashpowerTotals e'.submissions := hashpowerTotals_congr hhashpowers
  refine ⟨?_, htotals, fun msg msg' hsubs hsubs' hT hT' hrewards uuid => ?_⟩
  · have hmeasures : Maxima.measures InternalMessageSubmission.measure e.submissions =
        Maxima.measures InternalMessageSubmission.measure e'.submissions := by
      ext d
      refine exists_congr fun uuid => ?_
      rw [h.keeps.map_lookup_eq h'.keeps hoffers (fun _ _ hd => hd) uuid]
    have hbest := h.best
    rw [hmeasures] at hbest
    exact UInt32.toNat_inj.1 (hbest.unique h'.best)
  · have hmsgs : (msg.totalHashpower, msg.totalRealHashpower) = (msg'.totalHashpower, msg'.totalRealHashpower) := by
      rw [hT, hT', hsubs, hsubs', htotals]
    have hlookup := hentry uuid
    rw [← hsubs, ← hsubs'] at hlookup
    unfold MessageInternalMineSuccess.paid?
    rcases hsub : msg.submissions.lookup uuid with _ | sub <;> rcases hsub' : msg'.submissions.lookup uuid with _ | sub' <;>
      rw [hsub, hsub'] at hlookup
    · rfl
    · cases hlookup
    · cases hlookup
    · obtain ⟨hminer, hpowers⟩ := Prod.mk.inj (Option.some.inj hlookup)
      rw [Option.map_some, Option.map_some, hminer, earnedRewards_congr hmsgs hrewards hpowers]

/-- From the start of an epoch, with handlers that run one after another: the entry of a uuid is that of the best of its
admissible messages, messages that are not admissible have no effect, and messages in another order come to the same
payouts. -/
theorem order_irrelevant (dx : Drillx) {m : EpochMemory} (hopen : m.closed = false) (hreset : m.epochHashes.Reset)
    (msgs : List BestSolution) :
    (∀ uuid sub, (handleAll dx m msgs).epochHashes.submissions.lookup uuid = some sub →
      HoldsBest dx m msgs uuid sub) ∧
    (∀ msg ∈ msgs, msg.Admissible dx m →
      ((handleAll dx m msgs).epochHashes.submissions.lookup msg.uuid).isSome) ∧
    handleAll dx m msgs = handleAll dx m (msgs.filter fun msg => msg.Admissible dx m) ∧
    ∀ msgs', msgs.Perm msgs' → OneAddress msgs →
      SamePayouts (handleAll dx m msgs).epochHashes (handleAll dx m msgs').epochHashes := by
  have hgathers : ∀ msgs, Gathers dx (handleAll dx m msgs).epochHashes (admitted dx m msgs) :=
    handleAll_gathers hopen hreset
  refine ⟨fun uuid sub hsub => (hgathers msgs).holdsBest hsub, fun msg hmsg hadm => ?_, handleAll_filter hopen msgs,
    fun msgs' hperm hone => (hgathers msgs).samePayouts (hgathers msgs') hperm hone⟩
  obtain ⟨minerId, hmem⟩ := exists_mem_admitted hmsg hadm
  obtain ⟨sub, hsub, -⟩ := (hgathers msgs).keeps.highest (List.mem_map_of_mem hmem)
  exact Option.isSome_iff_exists.2 ⟨sub, hsub⟩

/-! ### Examples -/

/-- An open window and one connection, with the nonces below 10. -/
def orderMemory : EpochMemory :=
  { EpochMemory.start ⟨filled 1, 0⟩ (Database.single (filled 7) 0) with
    clientNonceRanges := AList.singleton 1 [⟨0, 10⟩]
    sockets := AList.singleton (.v4 0 1) ⟨1, filled 7, 1, "rig"⟩ }

/-- The epoch after solutions of the connection. -/
def orderEpoch (nonces : List UInt8) : EpochHashes :=
  (handleAll Mining.gradedSetup.drillx orderMemory (nonces.map Mining.gradedBest)).epochHashes

theorem order_irrelevant_example :
    ((orderEpoch [3, 5]).submissions.lookup 1).map InternalMessageSubmission.measure = some 17 ∧
      SamePayouts (orderEpoch [3, 5]) (orderEpoch [5, 3]) :=
  ⟨by decide +kernel,
    (order_irrelevant Mining.gradedSetup.drillx rfl ⟨rfl, rfl⟩ ([3, 5].map Mining.gradedBest)).2.2.2 _
      (List.Perm.swap ..) (by decide +kernel)⟩

end BitzPool
