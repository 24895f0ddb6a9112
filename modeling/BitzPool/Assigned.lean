import BitzPool.ResetOrder
import BitzPool.StartMining

/-!
# Ranges that clients were told to mine

A client may answer as soon as it has the message, but its range is registered only then, by a task that reads the ranges
of the client and writes them back in another lock section; and a reset empties the ranges without regard to the challenge.
`watchAssigned` notes the ranges that were sent with the challenge of the proof, until the proof has another challenge.

`assigned_kept` says when these are registered throughout, and, since that is not to be had of code that sends first, when
an answer in one of them passes the check: it comes after the registration, no registration is overwritten by a task that
has read before it, and no range is emptied that is still being mined.
-/

namespace BitzPool

open Transition Update

/-- A range that was sent to a client. -/
structure Assigned where
  uuid : Uuid
  range : NonceRange
  deriving DecidableEq

/-- The range is among those registered for the client. -/
def EpochMemory.Holds (m : EpochMemory) (p : Assigned) : Prop :=
  ∃ l ∈ m.clientNonceRanges.lookup p.uuid, p.range ∈ l

instance (m : EpochMemory) (p : Assigned) : Decidable (m.Holds p) :=
  inferInstanceAs (Decidable (∃ l ∈ m.clientNonceRanges.lookup p.uuid, p.range ∈ l))

def SendTask.assigned (t : SendTask) : Assigned := ⟨t.sender.uuid, t.msg.range⟩

/-- The ranges that the task is about to register. -/
def SendTask.writes? (t : SendTask) : SendPc → Option (List NonceRange)
  | .write current => some (current.getD [] ++ [t.msg.range])
  | _ => none

/-- The task has sent its message, and has yet to register the range. -/
def SendPc.registering : SendPc → Bool
  | .read | .write _ => true
  | .send | .done => false

/-- The answer whose range is checked by an action. -/
def Mining.checking? (s : Mining) : Mining.Action → Option BestSolution
  | .handler k => (s.handlers[k]?.filter fun h => h.2 = .ranges).map Prod.fst
  | _ => none

namespace Assigning

/-- What is noted of an action. -/
def watchAssigned (s : Assigning) : Action → List Assigned → List Assigned
  | .send k (.send true), ps =>
    ps ++ ((s.sends[k]?.filter fun t => t.1.msg.challenge = s.mining.mem.proof.challenge).map fun t => t.1.assigned).toList
  | .mining a, ps =>
    if (s.mining.nextProof? a).any fun p => p.challenge ≠ s.mining.mem.proof.challenge then [] else ps
  | _, ps => ps

/-- All that was assigned is registered. -/
def Registered (x : Assigning × List Assigned) : Prop := ∀ p ∈ x.2, x.1.mining.mem.Holds p

/-- A message finds its range registered, a task writes back all that was assigned to its client, and the ranges are
emptied when nothing is assigned. -/
def KeepsAssigned (x : Assigning × List Assigned) : Action → Prop
  | .send k (.send true) => ∀ t ∈ x.1.sends[k]?, t.1.msg.challenge = x.1.mining.mem.proof.challenge →
      x.1.mining.mem.Holds t.1.assigned
  | .send k .go => ∀ t ∈ x.1.sends[k]?, ∀ l ∈ t.1.writes? t.2, ∀ p ∈ x.2, p.uuid = t.1.sender.uuid → p.range ∈ l
  | .mining a => x.1.mining.nextOp? a = some .resetRanges → x.2 = []
  | _ => True

/-- No answer comes while its range is being registered, no task overwrites a range that was assigned, and none of those
is emptied. -/
def InTurn (x : Assigning × List Assigned) : Action → Prop
  | .send k .go => ∀ t ∈ x.1.sends[k]?, ∀ l ∈ t.1.writes? t.2, ∀ p ∈ x.2, p.uuid = t.1.sender.uuid →
      x.1.mining.mem.Holds p → p.range ∈ l
  | .mining a => (x.1.mining.nextOp? a = some .resetRanges → ∀ p ∈ x.2, ¬ x.1.mining.mem.Holds p) ∧
      ∀ msg ∈ x.1.mining.checking? a, ∀ t ∈ x.1.sends, t.2.registering = true → t.1.sender.uuid = msg.uuid →
        t.1.msg.range.contains msg.solution.nonce = false
  | _ => True

instance (x : Assigning × List Assigned) : (a : Action) → Decidable (KeepsAssigned x a)
  | .send k (.send true) => inferInstanceAs (Decidable (∀ t ∈ x.1.sends[k]?,
      t.1.msg.challenge = x.1.mining.mem.proof.challenge → x.1.mining.mem.Holds t.1.assigned))
  | .send k .go => inferInstanceAs (Decidable (∀ t ∈ x.1.sends[k]?, ∀ l ∈ t.1.writes? t.2, ∀ p ∈ x.2,
      p.uuid = t.1.sender.uuid → p.range ∈ l))
  | .mining a => inferInstanceAs (Decidable (x.1.mining.nextOp? a = some .resetRanges → x.2 = []))
  | .send _ (.send false) | .ready _ | .assign _ => isTrue trivial

instance (x : Assigning × List Assigned) : (a : Action) → Decidable (InTurn x a)
  | .send k .go => inferInstanceAs (Decidable (∀ t ∈ x.1.sends[k]?, ∀ l ∈ t.1.writes? t.2, ∀ p ∈ x.2,
      p.uuid = t.1.sender.uuid → x.1.mining.mem.Holds p → p.range ∈ l))
  | .mining a => inferInstanceAs (Decidable ((x.1.mining.nextOp? a = some .resetRanges →
      ∀ p ∈ x.2, ¬ x.1.mining.mem.Holds p) ∧
      ∀ msg ∈ x.1.mining.checking? a, ∀ t ∈ x.1.sends, t.2.registering = true → t.1.sender.uuid = msg.uuid →
        t.1.msg.range.contains msg.solution.nonce = false))
  | .send _ (.send _) | .ready _ | .assign _ => isTrue trivial

/-- An answer in a range that was assigned to its client passes the check. -/
def Accepts (dx : Drillx) (x : Assigning × List Assigned) : Action → Prop
  | .mining a => ∀ msg ∈ x.1.mining.checking? a, ∀ p ∈ x.2, p.uuid = msg.uuid →
      p.range.contains msg.solution.nonce = true →
      HandlerPc.ranges.step dx msg x.1.mining.mem = some (x.1.mining.mem, .socket)
  | _ => True

/-- What was assigned is registered or will be. -/
def Registering (x : Assigning × List Assigned) : Prop :=
  ∀ p ∈ x.2, x.1.mining.mem.Holds p ∨ ∃ t ∈ x.1.sends, t.2.registering = true ∧ t.1.assigned = p

variable {su : MiningSetup} {s s' : Assigning} {a : Action} {ps : List Assigned}

/-! ### What a step leaves registered -/

private theorem holds_iff_of_ranges {m m' : EpochMemory} (h : m'.clientNonceRanges = m.clientNonceRanges)
    {p : Assigned} : m'.Holds p ↔ m.Holds p := by
  rw [EpochMemory.Holds, EpochMemory.Holds, h]

/-- The counter has no part in it. -/
private theorem holds_of_counter {m : EpochMemory} {nonce : UInt64} {p : Assigned} (h : m.Holds p) :
    EpochMemory.Holds { m with nonce := nonce } p := h

private theorem not_holds_of_empty {m : EpochMemory} (h : m.clientNonceRanges = ∅) {p : Assigned} : ¬ m.Holds p := by
  rintro ⟨l, hl, -⟩
  rw [h] at hl
  cases hl

/-- Only the ranges of the client of the task are written. -/
private theorem holds_insert_iff {m : EpochMemory} {u : Uuid} {l : List NonceRange} {p : Assigned} :
    EpochMemory.Holds { m with clientNonceRanges := m.clientNonceRanges.insert u l } p ↔
      if p.uuid = u then p.range ∈ l else m.Holds p := by
  by_cases hu : p.uuid = u
  · rw [if_pos hu]
    show (∃ l' ∈ (m.clientNonceRanges.insert u l).lookup p.uuid, p.range ∈ l') ↔ _
    rw [hu, AList.lookup_insert]
    simp
  · rw [if_neg hu]
    show (∃ l' ∈ (m.clientNonceRanges.insert u l).lookup p.uuid, p.range ∈ l') ↔ _
    rw [AList.lookup_insert_ne hu]
    rfl

/-- The mining tasks empty the ranges, or leave them and assign nothing. -/
private theorem watchAssigned_of_mining (ps : List Assigned) {b : Mining.Action} {mining : Mining}
    (hb : ∀ nonce ranges, b ≠ .nonceRanges nonce ranges) (h : Mining.Step su s.mining b mining) :
    (s.mining.nextOp? b = some .resetRanges ∧ mining.mem.clientNonceRanges = ∅ ∧
        s.watchAssigned (.mining b) ps = ps) ∨
      (s.mining.nextOp? b ≠ some .resetRanges ∧
        mining.mem.clientNonceRanges = s.mining.mem.clientNonceRanges ∧
        ∀ p ∈ s.watchAssigned (.mining b) ps, p ∈ ps) := by
  rcases h.ranges hb with ⟨hop, he⟩ | ⟨hop, he⟩
  · refine Or.inl ⟨hop, he, ?_⟩
    have hproof : s.mining.nextProof? b = none := by
      unfold Mining.nextProof?
      split
      · cases hop
      · cases hop
      · rw [hop]
    simp [watchAssigned, hproof]
  · refine Or.inr ⟨hop, he, fun p hp => ?_⟩
    simp only [watchAssigned] at hp
    split at hp
    · cases hp
    · exact hp

private theorem watchAssigned_send {k : ℕ} {t : SendTask} {pc : SendPc} (hk : s.sends[k]? = some (t, pc)) :
    s.watchAssigned (.send k (.send true)) ps =
      if t.msg.challenge = s.mining.mem.proof.challenge then ps ++ [t.assigned] else ps := by
  simp only [watchAssigned, hk, Option.filter_some]
  split <;> simp_all

/-- All that was assigned is registered after a step exactly when it is taken under `KeepsAssigned`. -/
private theorem registered_step (hx : Registered (s, ps)) (h : Step su s a s') :
    Registered (s', s.watchAssigned a ps) ↔ KeepsAssigned (s, ps) a := by
  cases h with
  | @mining b mining hb hmining =>
    rcases watchAssigned_of_mining ps hb (Mining.step_sound hmining) with ⟨hop, he, hw⟩ | ⟨hop, he, hw⟩
    · rw [hw]
      constructor
      · intro hreg _
        refine List.eq_nil_iff_forall_not_mem.2 fun p hp => ?_
        exact not_holds_of_empty he (hreg p hp)
      · intro hC p hp
        have hnil : ps = [] := hC hop
        rw [hnil] at hp
        cases hp
    · refine iff_of_true (fun p hp => (holds_iff_of_ranges he).2 (hx p (hw p hp))) fun h => absurd h hop
  | ready | move => exact iff_of_true hx trivial
  | allocate => exact iff_of_true (fun p hp => holds_of_counter (hx p hp)) trivial
  | @send k ok t hk =>
    cases ok with
    | false => exact iff_of_true hx trivial
    | true =>
      rw [watchAssigned_send hk]
      have hkeeps : KeepsAssigned (s, ps) (.send k (.send true)) ↔
          (t.msg.challenge = s.mining.mem.proof.challenge → s.mining.mem.Holds t.assigned) := by
        simp [KeepsAssigned, hk]
      rw [hkeeps]
      split
      · next hcurrent =>
        constructor
        · intro hreg _
          exact hreg _ (List.mem_append_right _ (List.mem_singleton_self _))
        · intro hC p hp
          rcases List.mem_append.1 hp with hp | hp
          · exact hx p hp
          · rw [List.mem_singleton.1 hp]
            exact hC hcurrent
      · next hcurrent => exact iff_of_true hx fun h => absurd h hcurrent
  | @read k t hk =>
    refine iff_of_true hx ?_
    simp [KeepsAssigned, hk, SendTask.writes?]
  | @write k t current hk =>
    have hkeeps : KeepsAssigned (s, ps) (.send k .go) ↔
        ∀ p ∈ ps, p.uuid = t.sender.uuid → p.range ∈ current.getD [] ++ [t.msg.range] := by
      simp [KeepsAssigned, hk, SendTask.writes?]
    rw [hkeeps]
    refine forall₂_congr fun p hp => ?_
    show EpochMemory.Holds _ p ↔ _
    rw [holds_insert_iff]
    split
    · next hu => simp [hu]
    · next hu => exact iff_of_true (hx p hp) fun h => absurd h hu

/-! ### Answers -/

/-- A task that goes on from `pc` still has its range to register, or has nothing to do with it. -/
private theorem registering_set {k : ℕ} {t : SendTask} {pc pc' : SendPc} (hk : s.sends[k]? = some (t, pc))
    (hpc : pc.registering = true → pc'.registering = true) {p : Assigned}
    (h : ∃ x ∈ s.sends, x.2.registering = true ∧ x.1.assigned = p) :
    ∃ x ∈ s.sends.set k (t, pc'), x.2.registering = true ∧ x.1.assigned = p := by
  obtain ⟨x, hx, hregistering, hp⟩ := h
  by_cases he : x = (t, pc)
  · subst he
    exact ⟨(t, pc'), mem_set_self_of_getElem? hk, hpc hregistering, hp⟩
  · exact ⟨x, mem_set_of_ne hx hk he, hregistering, hp⟩

private theorem registering_step (hx : Registering (s, ps)) (hC : InTurn (s, ps) a) (h : Step su s a s') :
    Registering (s', s.watchAssigned a ps) := by
  cases h with
  | @mining b mining hb hmining =>
    rcases watchAssigned_of_mining ps hb (Mining.step_sound hmining) with ⟨hop, he, hw⟩ | ⟨-, he, hw⟩
    · rw [hw]
      intro p hp
      exact Or.inr ((hx p hp).resolve_left (hC.1 hop p hp))
    · intro p hp
      exact (hx p (hw p hp)).imp_left (holds_iff_of_ranges he).2
  | ready | move => exact hx
  | allocate =>
    intro p hp
    refine (hx p hp).imp holds_of_counter ?_
    rintro ⟨t, ht, hpending⟩
    exact ⟨t, List.mem_append_left _ ht, hpending⟩
  | @send k ok t hk =>
    have hold : ∀ p ∈ ps, s.mining.mem.Holds p ∨
        ∃ x ∈ s.sends.set k (t, .read), x.2.registering = true ∧ x.1.assigned = p :=
      fun p hp => (hx p hp).imp_right (registering_set hk fun _ => rfl)
    cases ok with
    | false => exact hold
    | true =>
      rw [watchAssigned_send hk]
      split
      · intro p hp
        rcases List.mem_append.1 hp with hp | hp
        · exact hold p hp
        · rw [List.mem_singleton.1 hp]
          exact Or.inr ⟨(t, .read), mem_set_self_of_getElem? hk, rfl, rfl⟩
      · exact hold
  | read hk =>
    intro p hp
    exact (hx p hp).imp_right (registering_set hk fun _ => rfl)
  | @write k t current hk =>
    have hkeeps : ∀ p ∈ ps, p.uuid = t.sender.uuid → s.mining.mem.Holds p →
        p.range ∈ current.getD [] ++ [t.msg.range] := by
      have hC : ∀ t ∈ s.sends[k]?, ∀ l ∈ t.1.writes? t.2, ∀ p ∈ ps, p.uuid = t.1.sender.uuid →
          s.mining.mem.Holds p → p.range ∈ l := hC
      exact hC _ hk _ rfl
    intro p hp
    show EpochMemory.Holds _ p ∨ _
    rw [holds_insert_iff]
    rcases hx p hp with hp' | ⟨x, hmem, hregistering, rfl⟩
    · refine Or.inl ?_
      split
      · next hu => exact hkeeps p hp hu hp'
      · exact hp'
    · by_cases he : x = (t, .write current)
      · subst he
        have hu : (t, SendPc.write current).1.assigned.uuid = t.sender.uuid := rfl
        refine Or.inl ?_
        rw [if_pos hu]
        exact List.mem_append_right _ (List.mem_singleton_self _)
      · exact Or.inr ⟨x, mem_set_of_ne hmem hk he, hregistering, rfl⟩

private theorem accepts_of_registering {dx : Drillx} (hx : Registering (s, ps)) (hC : InTurn (s, ps) a) :
    Accepts dx (s, ps) a := by
  cases a with
  | mining b =>
    intro msg hmsg p hp hu hcontains
    rcases hx p hp with ⟨l, hl, hr⟩ | ⟨t, ht, hregistering, rfl⟩
    · have hlookup : s.mining.mem.clientNonceRanges.lookup msg.uuid = some l := hu ▸ hl
      have hin : (l.any fun r => r.contains msg.solution.nonce) = true := List.any_eq_true.2 ⟨_, hr, hcontains⟩
      simp only [HandlerPc.step, hlookup, hin, if_true]
    · have hnot : t.1.assigned.range.contains msg.solution.nonce = false := hC.2 msg hmsg t ht hregistering hu
      rw [hcontains] at hnot
      cases hnot
  | _ => trivial

/-- The ranges that were assigned are registered throughout a run exactly when each message finds its range registered,
the tasks write back what was assigned, and the ranges are emptied only when nothing is assigned.  An answer in a range
that was assigned passes the check in every run in which it does not come while the range is being registered, and
neither tasks nor resets take away what is registered. -/
theorem assigned_kept (su : MiningSetup) (proof : Proof) (db : Database) {x : Assigning × List Assigned}
    {as : List Action} (h : run (watched (step su) watchAssigned) (start proof db, []) as = some x) :
    (Along (watched (step su) watchAssigned) (fun x a => ∀ y ∈ watched (step su) watchAssigned x a, Registered y)
        (start proof db, []) as ↔
      Along (watched (step su) watchAssigned) KeepsAssigned (start proof db, []) as) ∧
    (Along (watched (step su) watchAssigned) InTurn (start proof db, []) as →
      Registering x ∧ Along (watched (step su) watchAssigned) (Accepts su.drillx) (start proof db, []) as) := by
  have hregistered : ∀ {x : Assigning × List Assigned} {a : Action} {y : Assigning × List Assigned}, Registered x →
      watched (step su) watchAssigned x a = some y → (Registered y ↔ KeepsAssigned x a) := by
    intro x a y hx hxy
    obtain ⟨hstep, hw⟩ := watched_eq_some.1 hxy
    have hy := registered_step hx (step_sound hstep)
    rw [← hw] at hy
    exact hy
  have hregistering : ∀ {x : Assigning × List Assigned} {a : Action} {y : Assigning × List Assigned}, Registering x →
      InTurn x a → watched (step su) watchAssigned x a = some y → Registering y := by
    exact watched_invariant fun hx hC hstep => registering_step hx hC (step_sound hstep)
  have hstart : Registering (start proof db, []) := by
    intro p hp
    cases hp
  refine ⟨along_next_iff hregistered (fun p hp => by cases hp) h, fun hC => ?_⟩
  exact ⟨run_invariant hregistering hstart hC h, along_of_invariant hregistering accepts_of_registering hstart hC⟩

/-- A client gets two ranges, one after the other, and answers in the first of them; the watcher enters the epoch of the
next challenge, and the client gets a range for that and answers in it. -/
def twoRanges : List Action :=
  connectTwo ++ assign 0 (.v4 0 1) ++ assign 1 (.v4 0 1) ++ answer 0 (exampleBest 1 1) ++ nextEpoch ++
    assign 2 (.v4 0 1) ++ answer 1 (exampleBest 1 2)

/-- No answer comes before its range is registered; yet the messages were sent before. -/
theorem assigned_kept_example :
    ∃ x, run (watched (step exampleMiningSetup) watchAssigned) (exampleStart, []) twoRanges = some x ∧
      (x.1.sends.length = 3 ∧ x.1.mining.mem.proof.challenge = filled 2 ∧ x.2 = [⟨1, ⟨0, 39999999⟩⟩]) ∧
      Registering x ∧
      Along (watched (step exampleMiningSetup) watchAssigned) (Accepts exampleDrillx) (exampleStart, []) twoRanges ∧
      ¬ Along (watched (step exampleMiningSetup) watchAssigned)
        (fun x a => ∀ y ∈ watched (step exampleMiningSetup) watchAssigned x a, Registered y) (exampleStart, [])
        twoRanges := by
  have hrun : ∃ x, run (watched (step exampleMiningSetup) watchAssigned) (exampleStart, []) twoRanges = some x ∧
      x.1.sends.length = 3 ∧ x.1.mining.mem.proof.challenge = filled 2 ∧ x.2 = [⟨1, ⟨0, 39999999⟩⟩] :=
    exists_of_run (by decide +kernel)
  obtain ⟨x, h, hassigned⟩ := hrun
  obtain ⟨hiff, hturn⟩ := assigned_kept exampleMiningSetup _ _ h
  obtain ⟨hregistering, haccepts⟩ := hturn (by decide +kernel)
  have hnot : ¬ Along (watched (step exampleMiningSetup) watchAssigned) KeepsAssigned (exampleStart, []) twoRanges := by
    decide +kernel
  exact ⟨x, h, hassigned, hregistering, haccepts, fun hall => hnot (hiff.1 hall)⟩

/-- Connection 1 answers with the first nonce of the range that it was sent, for the challenge of the proof, and is
refused. -/
def Refused (as : List Action) (e : HandlerEnd) : Prop :=
  ∃ x, run (watched (step exampleMiningSetup) watchAssigned) (exampleStart, []) as = some x ∧
    ⟨1, ⟨0, 39999999⟩⟩ ∈ x.2 ∧ x.1.mining.handlers.getLast? = some (exampleBest 1 1, .done e)

/-- A message and its handler `i`, up to the check of the range. -/
def checkAnswer (i : ℕ) (msg : BestSolution) : List Action :=
  [.mining (.message msg), .mining (.handler i), .mining (.handler i)]

/-- The answer comes before the range is registered. -/
def early : List Action :=
  connectTwo ++ startPass (.v4 0 1) ++ takeRange ++ endPass ++ [.send 0 (.send true)] ++ checkAnswer 0 (exampleBest 1 1)

/-- Two ranges of one client are registered by tasks that have read before either has written. -/
def overwritten : List Action :=
  connectTwo ++ startPass (.v4 0 1) ++ takeRange ++ endPass ++ startPass (.v4 0 1) ++ takeRange ++ endPass ++
    [.send 0 (.send true), .send 1 (.send true), .send 0 .go, .send 1 .go, .send 0 .go, .send 1 .go] ++
    checkAnswer 0 (exampleBest 1 1)

/-- The simulation of the transaction says that the hash is invalid, and the main loop discards the submissions; the
challenge is the same as before. -/
def emptied : List Action :=
  connectTwo ++ assign 0 (.v4 0 1) ++ answer 0 (exampleBest 1 1) ++ List.replicate 60 (.mining .tick) ++
    List.map .mining (Mining.takeSnapshot ++ [.main (.proofAndConfig none), .main (.blockhash true),
      .main (.simulate true)] ++ List.replicate 4 (.main (.op .executed))) ++
    checkAnswer 1 (exampleBest 1 1)

theorem answers_refused : Refused early .noRange ∧ Refused overwritten .outOfRange ∧ Refused emptied .noRange :=
  ⟨exists_of_run (by decide +kernel), exists_of_run (by decide +kernel), exists_of_run (by decide +kernel)⟩

end Assigning

end BitzPool
