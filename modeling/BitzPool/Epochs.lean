import BitzPool.EpochReset
import BitzPool.EpochSound

/-!
# One challenge for the submissions of an epoch

Solutions are validated against the proof and stored in the submissions of the epoch.  The two are under different
locks: `proof_tracking_system` replaces the proof and leaves the submissions and the window as they are, so that
entries, and a best hash, for the old challenge stay among those for the new one.

`Origins` keeps, beside the system, the challenge against which each entry and the best hash were validated.  In the
runs in which a new challenge comes only while nothing is stored or about to be, or behind the closed window, and the
window is opened only for entries of the current challenge (`EpochsApart`), all of them have one challenge
(`epochs_unmixed`).
-/

namespace BitzPool

open Transition

/-- The challenges against which the entries and the best hash were validated. -/
structure Origins where
  entries : HashMap Uuid Challenge
  best : Option Challenge
  deriving DecidableEq

namespace Origins

/-- Nothing is stored. -/
def none : Origins := ⟨∅, .none⟩

/-- Everything stored was validated against `c`. -/
def Only (o : Origins) (c : Challenge) : Prop := (∀ x ∈ o.entries.entries, x.2 = c) ∧ ∀ c' ∈ o.best, c' = c

instance (o : Origins) (c : Challenge) : Decidable (o.Only c) :=
  have : Decidable (∀ x ∈ o.entries.entries, x.2 = c) := List.decidableBAll _ _
  have : Decidable (∀ c' ∈ o.best, c' = c) := Option.decidableForallMem o.best
  inferInstanceAs (Decidable (_ ∧ _))

/-- The record of what is stored in `e`. -/
structure Records (o : Origins) (e : EpochHashes) : Prop where
  entries : ∀ uuid, uuid ∈ e.submissions ↔ uuid ∈ o.entries
  best : e.bestHash.solution.isSome = o.best.isSome

theorem only_none (c : Challenge) : none.Only c := ⟨by rintro x ⟨⟩, by rintro c' ⟨⟩⟩

theorem only_of_empty {o : Origins} (hentries : o.entries.entries = []) (hbest : o.best = .none) (c : Challenge) :
    o.Only c := by
  refine ⟨fun x hx => ?_, fun c' hc' => ?_⟩
  · rw [hentries] at hx
    cases hx
  · rw [hbest] at hc'
    cases hc'

theorem Only.lookup {o : Origins} {c : Challenge} (h : o.Only c) {uuid : Uuid} (hmem : uuid ∈ o.entries) :
    o.entries.lookup uuid = some c := by
  obtain ⟨c', hc⟩ := Option.isSome_iff_exists.1 (AList.lookup_isSome.2 hmem)
  have hc' : c' = c := h.1 ⟨uuid, c'⟩ (AList.mem_lookup_iff.1 hc)
  rw [hc, hc']

theorem Records.of_eq {o : Origins} {e e' : EpochHashes} (h : o.Records e) (he : e' = e) : o.Records e' := he ▸ h

/-- A handler writes, against the best hash `b`. -/
def accept (dx : Drillx) (msg : BestSolution) (validated : Challenge) (b : BestHash) (o : Origins) : Origins where
  entries := o.entries.insert msg.uuid validated
  best := if b.difficulty < dx.difficulty msg.solution then some validated else o.best

/-- What the observer notes of an action. -/
def watch (dx : Drillx) (s : Mining) (a : Mining.Action) (o : Origins) : Origins :=
  match a with
  | .handler k =>
    match s.handlers[k]? with
    | some (msg, .write _ validated) => o.accept dx msg validated s.mem.epochHashes.bestHash
    | _ => o
  | a => if (s.nextOp? a).any EpochOp.resets then none else o

variable {dx : Drillx} {o : Origins} {e : EpochHashes} {c : Challenge}

theorem Records.accept (h : o.Records e) (msg : BestSolution) (minerId : MinerId) (validated : Challenge) :
    (o.accept dx msg validated e.bestHash).Records (e.accept msg (msg.submission dx minerId)) where
  entries uuid := by
    show uuid ∈ e.submissions.insert _ _ ↔ uuid ∈ o.entries.insert _ _
    rw [AList.mem_insert, AList.mem_insert, h.entries]
  best := by
    by_cases hlt : e.bestHash.difficulty < dx.difficulty msg.solution
    · simp [Origins.accept, EpochHashes.accept, BestSolution.submission, hlt]
    · simpa [Origins.accept, EpochHashes.accept, BestSolution.submission, hlt] using h.best

theorem Only.accept (h : o.Only c) (msg : BestSolution) (b : BestHash) : (o.accept dx msg c b).Only c := by
  refine ⟨fun x hx => ?_, fun c' hc' => ?_⟩
  · rw [Origins.accept, AList.entries_insert] at hx
    rcases List.mem_cons.1 hx with rfl | hx
    · rfl
    · exact h.1 x ((List.kerase_sublist _ _).subset hx)
  · change c' ∈ (if _ then _ else _ : Option Challenge) at hc'
    split at hc'
    · exact (Option.mem_some_iff.1 hc').symm
    · exact h.2 c' hc'

end Origins

namespace Mining

variable {su : MiningSetup} {s s' : Mining} {o : Origins} {a : Action}

/-- A new challenge comes only while nothing is stored and no handler has validated its solution, or while the window
is closed and no handler saw it open; and the window is opened only when what is stored is for the challenge of the
proof. -/
def EpochsApart (x : Mining × Origins) (a : Action) : Prop :=
  (∀ p ∈ x.1.nextProof? a, p.challenge ≠ x.1.mem.proof.challenge →
    (x.2.entries.entries = [] ∧ x.2.best = none) ∧ (∀ t ∈ x.1.handlers, t.2.validated? = none) ∨
      x.1.mem.closed = true ∧ ∀ t ∈ x.1.handlers, t.2.sawOpen = false) ∧
    (x.1.nextOp? a = some .openWindow → x.2.Only x.1.mem.proof.challenge)

instance (x : Mining × Origins) (a : Action) : Decidable (EpochsApart x a) := inferInstanceAs (Decidable (_ ∧ _))

/-- The invariant: while something can still be written, what is stored is for the challenge of the proof, and so is
what a handler has validated. -/
structure Unmixed (s : Mining) (o : Origins) : Prop where
  records : o.Records s.mem.epochHashes
  one : ∃ c, o.Only c
  current : (s.mem.closed = false ∨ ∃ t ∈ s.handlers, t.2.sawOpen) → o.Only s.mem.proof.challenge
  validated : ∀ t ∈ s.handlers, ∀ c ∈ t.2.validated?, c = s.mem.proof.challenge

theorem sawOpen_of_validated? {pc : HandlerPc} {c : Challenge} (h : pc.validated? = some c) :
    pc.sawOpen = true := by
  cases pc <;> first | rfl | cases h

theorem watch_of_ne_handler {dx : Drillx} (ha : ∀ k, a ≠ .handler k) :
    o.watch dx s a = if (s.nextOp? a).any EpochOp.resets then .none else o := by
  cases a with
  | handler k => exact absurd rfl (ha k)
  | _ => rfl

theorem watch_write {dx : Drillx} {k : ℕ} {msg : BestSolution} {minerId : MinerId} {validated : Challenge}
    (hk : s.handlers[k]? = some (msg, .write minerId validated)) :
    o.watch dx s (.handler k) = o.accept dx msg validated s.mem.epochHashes.bestHash := by
  simp only [Origins.watch, hk]

theorem watch_of_ne_write {dx : Drillx} {k : ℕ} {msg : BestSolution} {pc : HandlerPc}
    (hk : s.handlers[k]? = some (msg, pc)) (hpc : ∀ minerId validated, pc ≠ .write minerId validated) :
    o.watch dx s (.handler k) = o := by
  simp only [Origins.watch, hk]
  cases pc <;> first | rfl | exact absurd rfl (hpc _ _)

/-- A handler's step: it writes for the challenge of the proof, if it writes. -/
theorem Unmixed.handler (hs : Unmixed s o) {k : ℕ} {msg : BestSolution} {pc pc' : HandlerPc} {m : EpochMemory}
    (hk : s.handlers[k]? = some (msg, pc)) (h : HandlerStep su.drillx msg s.mem pc m pc')
    (hhandlers : s'.handlers = s.handlers.set k (msg, pc')) (hmem : s'.mem = m) :
    Unmixed s' (o.watch su.drillx s (.handler k)) := by
  have hold : (msg, pc) ∈ s.handlers := List.mem_of_getElem? hk
  have hset : ∀ t ∈ s'.handlers, t ∈ s.handlers ∨ t = (msg, pc') := by
    intro t ht
    rw [hhandlers] at ht
    exact List.mem_or_eq_of_mem_set ht
  -- a step that writes nothing; a handler that goes on had seen the window open
  have quiet : m = s.mem → (∀ minerId validated, pc ≠ .write minerId validated) →
      (pc'.sawOpen → s.mem.closed = false ∨ pc.sawOpen) → (∀ c ∈ pc'.validated?, c = s.mem.proof.challenge) →
      Unmixed s' (o.watch su.drillx s (.handler k)) := by
    intro hm hwrite hopen hval
    rw [watch_of_ne_write hk hwrite]
    refine ⟨?_, hs.one, fun hcur => ?_, fun t ht c hc => ?_⟩
    · rw [hmem, hm]
      exact hs.records
    · rw [hmem, hm] at hcur ⊢
      refine hs.current ?_
      rcases hcur with hcur | ⟨t, ht, hsaw⟩
      · exact Or.inl hcur
      · rcases hset t ht with ht | rfl
        · exact Or.inr ⟨t, ht, hsaw⟩
        · exact (hopen hsaw).imp_right fun hsaw => ⟨_, hold, hsaw⟩
    · rw [hmem, hm]
      rcases hset t ht with ht | rfl
      · exact hs.validated t ht c hc
      · exact hval c hc
  cases h with
  | late => exact quiet rfl (by simp) (by rintro ⟨⟩) (by rintro c ⟨⟩)
  | inTime hc => exact quiet rfl (by simp) (fun _ => Or.inl hc) (by rintro c ⟨⟩)
  | refuse _ hwrite => exact quiet rfl hwrite (by rintro ⟨⟩) (by rintro c ⟨⟩)
  | ranges | socket => exact quiet rfl (by simp) (fun _ => Or.inr rfl) (by rintro c ⟨⟩)
  | proof => exact quiet rfl (by simp) (fun _ => Or.inr rfl) (by rintro c ⟨⟩; rfl)
  | read => exact quiet rfl (by simp) (fun _ => Or.inr rfl) (hs.validated _ hold)
  | @write minerId validated =>
    have hval : validated = s.mem.proof.challenge := hs.validated _ hold validated rfl
    have honly : o.Only s.mem.proof.challenge := hs.current (Or.inr ⟨_, hold, rfl⟩)
    rw [watch_write hk, hval]
    refine ⟨?_, ⟨_, honly.accept _ _⟩, fun _ => ?_, fun t ht c hc => ?_⟩
    · rw [hmem]
      exact hs.records.accept _ _ _
    · rw [hmem]
      exact honly.accept _ _
    · rw [hmem]
      rcases hset t ht with ht | rfl
      · exact hs.validated t ht c hc
      · cases hc

/-- Of the handlers after the step of another task, those that may write were there before. -/
private theorem mem_handlers_of_sawOpen (h : Step su s a s') (ha : ∀ k, a ≠ .handler k) {t : BestSolution × HandlerPc}
    (ht : t ∈ s'.handlers) (hsaw : t.2.sawOpen = true) : t ∈ s.handlers := by
  rcases h.handlers ha with he | ⟨msg, he⟩
  · exact he ▸ ht
  · rw [he] at ht
    rcases List.mem_append.1 ht with ht | ht
    · exact ht
    · rw [List.mem_singleton.1 ht] at hsaw
      cases hsaw

/-- The record is emptied with the submissions. -/
private theorem Unmixed.reset (hs : Unmixed s o) (h : Step su s a s')
    (hreset : (s.nextOp? a).any EpochOp.resets = true) : Unmixed s' .none := by
  obtain ⟨op, hop, hres⟩ := (Option.any_eq_true _ _).1 hreset
  obtain ⟨_, hmem, hh⟩ := h.exec hop
  cases op with
  | resetEpoch c =>
    refine ⟨?_, ⟨s.mem.proof.challenge, Origins.only_none _⟩, fun _ => Origins.only_none _, ?_⟩
    · rw [hmem]
      exact ⟨fun uuid => Iff.rfl, rfl⟩
    · rw [hmem, hh]
      exact hs.validated
  | _ => cases hres

private theorem Unmixed.other (hs : Unmixed s o) (hC : EpochsApart (s, o) a) (h : Step su s a s')
    (ha : ∀ k, a ≠ .handler k) (hreset : (s.nextOp? a).any EpochOp.resets ≠ true) : Unmixed s' o := by
  have hepoch : s'.mem.epochHashes = s.mem.epochHashes := by
    rcases h.epochHashes ha with he | ⟨c, c', hop, -⟩
    · exact he
    · exact absurd (by rw [hop]; rfl) hreset
  have hopen : s'.mem.closed = false → s.mem.closed = false ∨ s.nextOp? a = some .openWindow := by
    intro hc
    rcases h.closed with (hc' | hc') | hop
    · rw [hc'] at hc
      cases hc
    · exact Or.inl (hc' ▸ hc)
    · exact Or.inr hop
  have hsaw : ∀ t ∈ s'.handlers, t.2.sawOpen = true → t ∈ s.handlers := fun t ht hsaw =>
    mem_handlers_of_sawOpen h ha ht hsaw
  suffices hkeep : ((s'.mem.closed = false ∨ ∃ t ∈ s'.handlers, t.2.sawOpen) → o.Only s'.mem.proof.challenge) ∧
      ∀ t ∈ s'.handlers, ∀ c ∈ t.2.validated?, c = s'.mem.proof.challenge from
    ⟨hepoch ▸ hs.records, hs.one, hkeep.1, hkeep.2⟩
  by_cases hch : s'.mem.proof.challenge = s.mem.proof.challenge
  · rw [hch]
    refine ⟨fun hcur => ?_, fun t ht c hc => ?_⟩
    · rcases hcur with hc | ⟨t, ht, ho⟩
      · rcases hopen hc with hc | hop
        · exact hs.current (Or.inl hc)
        · exact hC.2 hop
      · exact hs.current (Or.inr ⟨t, hsaw t ht ho, ho⟩)
    · exact hs.validated t (hsaw t ht (sawOpen_of_validated? hc)) c hc
  · have hnext : s.nextProof? a = some s'.mem.proof :=
      h.proof.resolve_left fun he => hch (by rw [he])
    rcases hC.1 _ hnext hch with ⟨⟨hentries, hbest⟩, hno⟩ | ⟨hclosed, hno⟩
    · refine ⟨fun _ => Origins.only_of_empty hentries hbest _, fun t ht c hc => ?_⟩
      rw [hno t (hsaw t ht (sawOpen_of_validated? hc))] at hc
      cases hc
    · -- nothing can be written behind the closed window
      have hgone : ∀ t ∈ s'.handlers, t.2.sawOpen = true → False := by
        intro t ht ho
        rw [hno t (hsaw t ht ho)] at ho
        cases ho
      refine ⟨fun hcur => ?_, fun t ht c hc => (hgone t ht (sawOpen_of_validated? hc)).elim⟩
      rcases hcur with hc | ⟨t, ht, ho⟩
      · rcases hopen hc with hc | hop
        · rw [hclosed] at hc
          cases hc
        · obtain ⟨_, hmem, -⟩ := h.exec hop
          exact absurd (by rw [hmem]; rfl) hch
      · exact (hgone t ht ho).elim

theorem Unmixed.step (hs : Unmixed s o) (hC : EpochsApart (s, o) a) (h : Step su s a s') :
    Unmixed s' (o.watch su.drillx s a) := by
  by_cases ha : ∃ k, a = .handler k
  · obtain ⟨k, rfl⟩ := ha
    cases h with
    | handler hk h => exact hs.handler hk h rfl rfl
  have ha : ∀ k, a ≠ .handler k := fun k h => ha ⟨k, h⟩
  rw [watch_of_ne_handler ha]
  split
  · next hreset => exact hs.reset h hreset
  · next hreset => exact hs.other hC h ha hreset

theorem start_unmixed (proof : Proof) (db : Database) : Unmixed (start proof db) .none where
  records := ⟨fun uuid => Iff.rfl, rfl⟩
  one := ⟨proof.challenge, Origins.only_none _⟩
  current _ := Origins.only_none _
  validated t ht := by cases ht

/-- If the challenge changes only when nothing for the old one is stored or can be written, and the window is opened
only for entries of the current challenge, then in the state the server reaches all entries and the best hash were
validated against one challenge. -/
theorem epochs_unmixed (su : MiningSetup) (proof : Proof) (db : Database) {x : Mining × Origins} {as : List Action}
    (hC : Along (watched (step su) (Origins.watch su.drillx)) EpochsApart (start proof db, .none) as)
    (h : run (watched (step su) (Origins.watch su.drillx)) (start proof db, .none) as = some x) :
    run (step su) (start proof db) as = some x.1 ∧
      ∃ c, (∀ uuid ∈ x.1.mem.epochHashes.submissions, x.2.entries.lookup uuid = some c) ∧
        (x.1.mem.epochHashes.bestHash.solution.isSome → x.2.best = some c) := by
  have hrun : run (step su) (start proof db) as = some x.1 := by
    have hmap : (run (watched (step su) (Origins.watch su.drillx)) (start proof db, .none) as).map Prod.fst =
        run (step su) (start proof db) as := run_watched _ as
    rw [← hmap, h]
    rfl
  have hs : Unmixed x.1 x.2 := by
    refine run_invariant (I := fun x => Unmixed x.1 x.2) (watched_invariant (J := fun x => Unmixed x.1 x.2) ?_)
      (start_unmixed proof db) hC h
    exact fun hs hC hstep => Unmixed.step hs hC (step_sound hstep)
  obtain ⟨c, honly⟩ := hs.one
  refine ⟨hrun, c, fun uuid hmem => honly.lookup ((hs.records.entries uuid).1 hmem), fun hbest => ?_⟩
  rw [hs.records.best] at hbest
  obtain ⟨c', hc'⟩ := Option.isSome_iff_exists.1 hbest
  rw [hc', honly.2 c' hc']

/-- A round; the next proof comes while its transaction is sent, the watcher enters the epoch, and two clients have
solutions for the new challenge. -/
def throughNewProof : List Action :=
  roundWithWatcher ++ watcherEnters ++ [.main .go] ++ acceptNext ++ accept 2 (exampleBest 2 2)

theorem epochs_unmixed_example :
    ∃ x, run (watched (step exampleMiningSetup) (Origins.watch exampleDrillx)) (exampleStart, .none)
        throughNewProof = some x ∧
      (x.2.entries.entries = [⟨2, filled 2⟩, ⟨1, filled 2⟩] ∧ x.2.best = some (filled 2)) ∧
      ∃ c, (∀ uuid ∈ x.1.mem.epochHashes.submissions, x.2.entries.lookup uuid = some c) ∧
        (x.1.mem.epochHashes.bestHash.solution.isSome → x.2.best = some c) := by
  have hrun : ∃ x, run (watched (step exampleMiningSetup) (Origins.watch exampleDrillx)) (exampleStart, .none)
      throughNewProof = some x ∧ (x.2.entries.entries = [⟨2, filled 2⟩, ⟨1, filled 2⟩] ∧ x.2.best = some (filled 2)) :=
    exists_of_run (by decide +kernel)
  obtain ⟨x, h, hentries⟩ := hrun
  exact ⟨x, h, hentries, (epochs_unmixed exampleMiningSetup _ _ (by decide +kernel) h).2⟩

/-- A new proof comes over the websocket while the window is open: the entry for the old challenge and the best hash
stay, and an entry for the new one joins them. -/
theorem epochs_mixed :
    ∃ x, run (watched (step exampleMiningSetup) (Origins.watch exampleDrillx)) (exampleStart, .none)
        (exampleWorld ++ accept 0 (exampleBest 1 1) ++ [.notify ⟨filled 2, 60⟩, .track] ++
          accept 1 (exampleBest 2 2)) = some x ∧
      x.1.mem.epochHashes.submissions.keys = [2, 1] ∧
      x.2.entries.entries = [⟨2, filled 2⟩, ⟨1, filled 1⟩] ∧
      x.1.mem.epochHashes.bestHash.solution = some (exampleBest 1 1).solution ∧ x.2.best = some (filled 1) :=
  exists_of_run (by decide +kernel)

end Mining

end BitzPool
