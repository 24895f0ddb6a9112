import BitzPool.Lib.Run
import BitzPool.MiningSteps
import BitzPool.Payout
import BitzPool.Steps

/-!
# The submissions of an epoch and its best hash

A handler decides on a copy of the submissions and writes later, and five branches reset them in between; the best
hash is compared again under the lock of the write.  So whatever the order, the best hash is at least as good as every
entry, and there is one exactly when there are entries (`EpochHashes.Sound`).  As long as solutions stay below
difficulty 70, the hashpower of an entry does not overflow, and the payout of a snapshot divides by zero nowhere
(`epoch_sound`).
-/

namespace BitzPool

open Transition

/-! ### Entries -/

/-- An entry as a handler writes it: of an admitted difficulty, with the hashpower of that difficulty, capped for
`hashpower`. -/
structure InternalMessageSubmission.Sound (sub : InternalMessageSubmission) : Prop where
  diff : 12 ≤ sub.suppliedDiff.toNat
  real : sub.realHashpower.toNat = 80 * 2 ^ (sub.suppliedDiff.toNat - 12)
  capped : sub.hashpower.toNat = min sub.realHashpower.toNat 327680

def SubmissionsSound (subs : Submissions) : Prop := ∀ e ∈ subs.entries, e.2.Sound

/-- Below difficulty 70 the hashpower fits in 64 bits. -/
theorem realHashpowerOf_toNat {diff : UInt32} (hmin : minDiff ≤ diff) (hmax : diff < 70) :
    (realHashpowerOf diff).toNat = 80 * 2 ^ (diff.toNat - 12) := by
  have hsub : (diff - minDiff).toNat = diff.toNat - 12 := UInt32.toNat_sub_of_le _ _ hmin
  have hlt : diff.toNat < 70 := UInt32.lt_iff_toNat_lt.1 hmax
  have hpow : 2 ^ (diff.toNat - 12) ≤ 2 ^ 57 := Nat.pow_le_pow_right (by omega) (by omega)
  have hfits : 80 * 2 ^ (diff.toNat - 12) < 2 ^ 64 := by omega
  have hpow' : 2 ^ (diff.toNat - 12) < 2 ^ 64 := by omega
  rw [realHashpowerOf, hsub, UInt64.toNat_mul, UInt64.toNat_ofNat', Nat.mod_eq_of_lt hpow']
  exact Nat.mod_eq_of_lt hfits

theorem BestSolution.submission_sound {dx : Drillx} {msg : BestSolution} (minerId : MinerId)
    (hmin : minDiff ≤ dx.difficulty msg.solution) (hmax : dx.difficulty msg.solution < 70) :
    (msg.submission dx minerId).Sound where
  diff := UInt32.le_iff_toNat_le.1 hmin
  real := realHashpowerOf_toNat hmin hmax
  capped := hashpower_toNat _

theorem mem_insert_entries {subs : Submissions} {uuid : Uuid} {sub : InternalMessageSubmission}
    {e : (_ : Uuid) × InternalMessageSubmission} (h : e ∈ (subs.insert uuid sub).entries) :
    e = ⟨uuid, sub⟩ ∨ e ∈ subs.entries := by
  rw [AList.entries_insert] at h
  rcases List.mem_cons.1 h with rfl | h
  · exact Or.inl rfl
  · exact Or.inr ((List.kerase_sublist _ _).subset h)

/-! ### The best hash -/

/-- There is a best solution exactly when there are entries; it has the difficulty that is kept with it, and no entry
has a higher one. -/
structure EpochHashes.Sound (dx : Drillx) (e : EpochHashes) : Prop where
  none_iff : e.bestHash.solution = none ↔ e.bestHash.difficulty = 0
  empty_iff : e.bestHash.difficulty = 0 ↔ e.submissions = ∅
  best : ∀ sol, e.bestHash.solution = some sol → dx.difficulty sol = e.bestHash.difficulty
  bound : ∀ x ∈ e.submissions.entries, x.2.suppliedDiff ≤ e.bestHash.difficulty
  entries : SubmissionsSound e.submissions

variable {dx : Drillx}

theorem EpochHashes.sound_empty (dx : Drillx) (c : Challenge) : Sound dx ⟨c, ⟨none, 0⟩, ∅⟩ :=
  ⟨by simp, by simp, by simp, by rintro x ⟨⟩, by rintro x ⟨⟩⟩

/-- A write keeps this, whatever the submissions were when the handler looked at them. -/
theorem EpochHashes.Sound.accept {e : EpochHashes} (h : e.Sound dx) {msg : BestSolution} (minerId : MinerId)
    (hmin : minDiff ≤ dx.difficulty msg.solution) (hmax : dx.difficulty msg.solution < 70) :
    (e.accept msg (msg.submission dx minerId)).Sound dx := by
  have hpos : (0 : UInt32) < dx.difficulty msg.solution := UInt32.lt_of_lt_of_le (by decide) hmin
  have hne : (e.accept msg (msg.submission dx minerId)).submissions ≠ ∅ := by
    intro h0
    have hmem : msg.uuid ∈ (e.accept msg (msg.submission dx minerId)).submissions :=
      (AList.mem_insert _).2 (Or.inl rfl)
    rw [h0] at hmem
    exact AList.notMem_empty _ hmem
  have hentries : SubmissionsSound (e.accept msg (msg.submission dx minerId)).submissions := by
    intro x hx
    rcases mem_insert_entries hx with rfl | hx
    · exact msg.submission_sound minerId hmin hmax
    · exact h.entries x hx
  by_cases hlt : e.bestHash.difficulty < dx.difficulty msg.solution
  · -- the new solution is the best one
    have hbest : (e.accept msg (msg.submission dx minerId)).bestHash = ⟨some msg.solution, dx.difficulty msg.solution⟩ :=
      if_pos hlt
    have hdiff : dx.difficulty msg.solution ≠ 0 := (UInt32.ne_of_lt hpos).symm
    refine ⟨?_, ?_, ?_, fun x hx => ?_, hentries⟩
    · simp [hbest, hdiff]
    · simp [hbest, hdiff, hne]
    · rw [hbest]
      rintro sol ⟨⟩
      rfl
    · rw [hbest]
      rcases mem_insert_entries hx with rfl | hx
      · exact UInt32.le_refl _
      · exact UInt32.le_of_lt (UInt32.lt_of_le_of_lt (h.bound x hx) hlt)
  · -- the old one stays, so there was one
    have hbest : (e.accept msg (msg.submission dx minerId)).bestHash = e.bestHash := if_neg hlt
    have hle : dx.difficulty msg.solution ≤ e.bestHash.difficulty := UInt32.not_lt.1 hlt
    have hdiff : e.bestHash.difficulty ≠ 0 := (UInt32.ne_of_lt (UInt32.lt_of_lt_of_le hpos hle)).symm
    refine ⟨?_, ?_, ?_, fun x hx => ?_, hentries⟩
    · rw [hbest]
      exact h.none_iff
    · rw [hbest]
      exact ⟨fun h0 => absurd h0 hdiff, fun h0 => absurd h0 hne⟩
    · rw [hbest]
      exact h.best
    · rw [hbest]
      rcases mem_insert_entries hx with rfl | hx
      · exact hle
      · exact h.bound x hx

/-- An operation empties the submissions or leaves them alone. -/
theorem EpochHashes.Sound.exec {cfg : RowId} {o : CallOutcome} {m : EpochMemory} (h : m.epochHashes.Sound dx)
    (op : EpochOp) : (op.exec cfg o m).1.epochHashes.Sound dx := by
  cases hr : op.resets with
  | false =>
    rw [EpochOp.exec_epochHashes hr]
    exact h
  | true =>
    cases op with
    | resetEpoch c => exact EpochHashes.sound_empty _ _
    | _ => cases hr

/-! ### Runs -/

/-- The challenge against which a handler that is about to write has validated its solution. -/
def HandlerPc.validated? : HandlerPc → Option Challenge
  | .read _ validated | .write _ validated => some validated
  | .window | .ranges | .socket | .proof _ | .done _ => none

/-- A payout task sends the message of its round, with the totals of its snapshot. -/
theorem PayoutStep.messages {cfg : Config} {r : Round} {db db' : Database} {i : PayoutInput} {pc pc' : PayoutPc}
    {msgs : List MessageInternalMineSuccess} (h : PayoutStep cfg r db i pc db' pc' msgs) :
    ∀ msg ∈ msgs, msg.submissions = r.submissions ∧ msg.TotalsComputed := by
  cases h with
  | send =>
    intro msg hmsg
    rw [List.mem_singleton.1 hmsg]
    exact ⟨rfl, r.message_totals _ _⟩
  | _ => simp

namespace Mining

/-- The difficulties of all messages are below 70. -/
def SmallDifficulties (dx : Drillx) (_ : Mining) : Action → Prop
  | .message msg => dx.difficulty msg.solution < 70
  | _ => True

instance (dx : Drillx) (s : Mining) (a : Action) : Decidable (s.SmallDifficulties dx a) :=
  match a with
  | .message msg => inferInstanceAs (Decidable (dx.difficulty msg.solution < 70))
  | .tick | .main _ | .watcher _ _ | .notify _ | .track | .handler _ | .payout _ _ | .land _ _ | .connections _
  | .nonceRanges _ _ | .database _ => isTrue trivial

/-- The invariant: the epoch is sound, and so are the snapshots that were taken of it, wherever they are by now. -/
structure HashesSound (dx : Drillx) (s : Mining) : Prop where
  hashes : s.mem.epochHashes.Sound dx
  admitted : ∀ t ∈ s.handlers, t.2.validated?.isSome → minDiff ≤ dx.difficulty t.1.solution
  small : ∀ t ∈ s.handlers, dx.difficulty t.1.solution < 70
  rounds : ∀ x ∈ s.history.rounds, SubmissionsSound x.2
  main : ∀ r, s.main.round? = some r → SubmissionsSound r.submissions
  payouts : ∀ t ∈ s.payouts, SubmissionsSound t.1.submissions
  messages : ∀ x ∈ s.messages, SubmissionsSound x.2.submissions ∧ x.2.TotalsComputed

variable {su : MiningSetup} {s s' : Mining} {a : Action}

theorem HashesSound.mainStep (hs : s.HashesSound dx) {input : MainInput} {m : MainMemory} {pc : MainPc} {ev : MainEvent}
    (h : MainStep dx su.config.poolId s.history.rounds.length ⟨s.mem, s.chain⟩ input s.main m pc ev) :
    ({ s with mem := m.mem, chain := m.chain, main := pc }.event s.mem ev).HashesSound dx := by
  have hmain := hs.main
  generalize s.main = pc₀ at h hmain
  have hround : ∀ r, pc.round? = some r → SubmissionsSound r.submissions := by
    intro r hr
    rcases h.round? hr with hold | rfl
    · exact hmain r hold
    · cases h with
      | snapshot he =>
        rw [he]
        exact hs.hashes.entries
  cases h with
  | @snapshot old r he =>
    refine ⟨hs.hashes, hs.admitted, hs.small, fun x hx => ?_, hround, hs.payouts, hs.messages⟩
    rcases List.mem_append.1 hx with hx | hx
    · exact hs.rounds x hx
    · rw [List.mem_singleton.1 hx]
      exact hround r rfl
  | @enterOp o op ops | @discardOp o r op ops =>
    refine ⟨hs.hashes.exec op, hs.admitted, hs.small, ?_, hround, hs.payouts, hs.messages⟩
    show ∀ x ∈ (s.history.exec s.mem op).rounds, _
    rw [History.exec_rounds]
    exact hs.rounds
  | @success r best i tx =>
    refine ⟨hs.hashes, hs.admitted, hs.small, hs.rounds, hround, fun t ht => ?_, hs.messages⟩
    rcases List.mem_append.1 ht with ht | ht
    · exact hs.payouts t ht
    · rw [List.mem_singleton.1 ht]
      exact hround r rfl
  | failed =>
    refine ⟨hs.hashes, hs.admitted, hs.small, hs.rounds, hround, fun t ht => ?_, hs.messages⟩
    rcases List.mem_append.1 ht with ht | ht
    · exact hs.payouts t ht
    · cases ht
  | _ => exact ⟨hs.hashes, hs.admitted, hs.small, hs.rounds, hround, hs.payouts, hs.messages⟩

/-- A step of a handler: what it writes was admitted before. -/
theorem HashesSound.handler (hs : s.HashesSound dx) {k : ℕ} {msg : BestSolution} {pc pc' : HandlerPc} {m : EpochMemory}
    (ht : s.handlers[k]? = some (msg, pc)) (h : HandlerStep dx msg s.mem pc m pc') :
    HashesSound dx { s with
      mem := m, handlers := s.handlers.set k (msg, pc'), history := s.history.accept msg pc } := by
  have hold : (msg, pc) ∈ s.handlers := List.mem_of_getElem? ht
  have hmem : ∀ t ∈ s.handlers.set k (msg, pc'), t ∈ s.handlers ∨ t = (msg, pc') := fun t =>
    List.mem_or_eq_of_mem_set
  have hsmall : ∀ t ∈ s.handlers.set k (msg, pc'), dx.difficulty t.1.solution < 70 := by
    intro t ht
    rcases hmem t ht with ht | rfl
    · exact hs.small t ht
    · show dx.difficulty msg.solution < 70
      exact hs.small (msg, pc) hold
  have hrounds : ∀ x ∈ (s.history.accept msg pc).rounds, SubmissionsSound x.2 := by
    rw [History.accept_rounds]
    exact hs.rounds
  have hadmitted : (pc'.validated?.isSome → minDiff ≤ dx.difficulty msg.solution) →
      ∀ t ∈ s.handlers.set k (msg, pc'), t.2.validated?.isSome → minDiff ≤ dx.difficulty t.1.solution := by
    intro hpc t ht hv
    rcases hmem t ht with ht | rfl
    · exact hs.admitted t ht hv
    · exact hpc hv
  cases h with
  | write =>
    have hmin := hs.admitted _ hold rfl
    exact ⟨hs.hashes.accept _ hmin (hs.small _ hold), hadmitted (by rintro ⟨⟩), hsmall, hrounds, hs.main, hs.payouts,
      hs.messages⟩
  | proof _ hmin => exact ⟨hs.hashes, hadmitted fun _ => hmin, hsmall, hrounds, hs.main, hs.payouts, hs.messages⟩
  | read =>
    exact ⟨hs.hashes, hadmitted fun _ => hs.admitted _ hold rfl, hsmall, hrounds, hs.main, hs.payouts, hs.messages⟩
  | _ => exact ⟨hs.hashes, hadmitted (by rintro ⟨⟩), hsmall, hrounds, hs.main, hs.payouts, hs.messages⟩

theorem HashesSound.step (hs : s.HashesSound su.drillx) (hC : s.SmallDifficulties su.drillx a) (h : Step su s a s') :
    s'.HashesSound su.drillx := by
  cases h with
  | main h => exact hs.mainStep h
  | watcher _ h =>
    cases h with
    | op =>
      refine ⟨hs.hashes.exec _, hs.admitted, hs.small, ?_, hs.main, hs.payouts, hs.messages⟩
      show ∀ x ∈ (s.history.exec s.mem _).rounds, _
      rw [History.exec_rounds]
      exact hs.rounds
    | _ => exact ⟨hs.hashes, hs.admitted, hs.small, hs.rounds, hs.main, hs.payouts, hs.messages⟩
  | @message msg =>
    refine ⟨hs.hashes, fun t ht hv => ?_, fun t ht => ?_, hs.rounds, hs.main, hs.payouts, hs.messages⟩
    · rcases List.mem_append.1 ht with ht | ht
      · exact hs.admitted t ht hv
      · rw [List.mem_singleton.1 ht] at hv
        cases hv
    · rcases List.mem_append.1 ht with ht | ht
      · exact hs.small t ht
      · rw [List.mem_singleton.1 ht]
        exact hC
  | handler ht h => exact hs.handler ht h
  | @payout k input r pc pc' db msgs ht h =>
    have hr : SubmissionsSound r.submissions := hs.payouts _ (List.mem_of_getElem? ht)
    refine ⟨hs.hashes, hs.admitted, hs.small, hs.rounds, hs.main, fun t ht' => ?_, fun x hx => ?_⟩
    · rcases List.mem_or_eq_of_mem_set ht' with ht' | rfl
      · exact hs.payouts t ht'
      · exact hr
    · rcases List.mem_append.1 hx with hx | hx
      · exact hs.messages x hx
      · obtain ⟨msg, hmsg, rfl⟩ := List.mem_map.1 hx
        obtain ⟨hsub, htotals⟩ := (PayoutPc.step_sound h).messages msg hmsg
        exact ⟨hsub ▸ hr, htotals⟩
  | _ => exact ⟨hs.hashes, hs.admitted, hs.small, hs.rounds, hs.main, hs.payouts, hs.messages⟩

theorem start_hashesSound (dx : Drillx) (proof : Proof) (db : Database) : (start proof db).HashesSound dx where
  hashes := EpochHashes.sound_empty _ _
  admitted t ht := by cases ht
  small t ht := by cases ht
  rounds x hx := by cases hx
  main r hr := by cases hr
  payouts t ht := by cases ht
  messages x hx := by cases hx

end Mining

/-! ### The payout of a snapshot -/

theorem SubmissionsSound.realHashpower_pos {subs : Submissions} (h : SubmissionsSound subs) :
    ∀ e ∈ subs.entries, 0 < e.2.realHashpower := by
  intro e he
  have hpow := Nat.two_pow_pos (e.2.suppliedDiff.toNat - 12)
  have hreal := (h e he).real
  refine UInt64.lt_iff_toNat_lt.2 ?_
  rw [hreal]
  exact Nat.mul_pos (by decide) hpow

/-- The totals of a snapshot with an entry are positive. -/
theorem SubmissionsSound.totals_pos {subs : Submissions} (h : SubmissionsSound subs) (hne : subs ≠ ∅)
    (hsum : realHashpowerSum subs < 2 ^ 64) : 0 < (hashpowerTotals subs).1 ∧ 0 < (hashpowerTotals subs).2 := by
  have hentries : subs.entries ≠ [] := fun h0 => hne (AList.ext h0)
  obtain ⟨e, he⟩ := List.exists_mem_of_ne_nil _ hentries
  obtain ⟨h1, h2⟩ := hashpowerTotals_ne_zero h.realHashpower_pos hsum he
  exact ⟨UInt64.lt_iff_toNat_lt.2 (Nat.pos_of_ne_zero h1), UInt64.lt_iff_toNat_lt.2 (Nat.pos_of_ne_zero h2)⟩

namespace Mining

/-- In every state reached the epoch is sound; the totals of a non-empty snapshot are positive, and the payout of a
message divides by zero nowhere. -/
theorem epoch_sound (su : MiningSetup) (proof : Proof) (db : Database) {s' : Mining} {as : List Action}
    (hC : Along (step su) (SmallDifficulties su.drillx) (start proof db) as)
    (h : run (step su) (start proof db) as = some s') :
    s'.mem.epochHashes.Sound su.drillx ∧
      (∀ x ∈ s'.history.rounds, x.2 ≠ ∅ → realHashpowerSum x.2 < 2 ^ 64 →
        0 < (hashpowerTotals x.2).1 ∧ 0 < (hashpowerTotals x.2).2) ∧
      ∀ x ∈ s'.messages, realHashpowerSum x.2.submissions < 2 ^ 64 →
        ∀ poolId socks, (payoutRows poolId x.2 socks).isSome := by
  have hs : s'.HashesSound su.drillx :=
    run_invariant (fun hs hC hstep => HashesSound.step hs hC (step_sound hstep)) (start_hashesSound _ _ _) hC h
  refine ⟨hs.hashes, fun x hx hne hsum => (hs.rounds x hx).totals_pos hne hsum, fun x hx hsum poolId socks => ?_⟩
  obtain ⟨hsub, htotals⟩ := hs.messages x hx
  refine payoutRows_isSome fun e he => ?_
  obtain ⟨h1, h2⟩ := totals_ne_zero htotals hsub.realHashpower_pos hsum he
  rw [Option.isSome_iff_ne_none, Ne, earnedRewards_eq_none, not_or]
  exact ⟨h1, h2⟩

theorem epoch_sound_example :
    ∃ s', run (step exampleMiningSetup) exampleStart (exampleWorld ++ accept 0 (exampleBest 1 1)) = some s' ∧
      s'.mem.epochHashes.submissions.keys = [1] ∧ s'.mem.epochHashes.Sound exampleDrillx := by
  have hrun : ∃ s', run (step exampleMiningSetup) exampleStart (exampleWorld ++ accept 0 (exampleBest 1 1)) = some s' ∧
      s'.mem.epochHashes.submissions.keys = [1] := exists_of_run (by decide +kernel)
  obtain ⟨s', h, hkeys⟩ := hrun
  exact ⟨s', h, hkeys, (epoch_sound exampleMiningSetup _ _ (by decide +kernel) h).1⟩

end Mining

end BitzPool
