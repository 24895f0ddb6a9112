import BitzPool.Assignment
import BitzPool.Lib.Update

/-!
# What a message to start mining says

A pass of `handle_ready_clients_system` reads the proof for the cutoff, reads it again for the challenge, and takes the
ranges of its clients from the counter one by one; no lock is held between these.  `Provenance.watch` notes where the
parts of each message come from: the proof and the time of the cutoff, and the challenge for which the counter was last
reset.  `messages_coherent` says that they belong together when no new proof comes between the two reads, the counter was
reset for the proof of the second one, and it is not reset again while the pass hands out ranges.
-/

namespace BitzPool

open Transition Update

/-- The cutoff that a pass sends, from the proof it read first and the time it looked at the clock. -/
def passCutoff (pass : Proof × ℤ) : ℤ := if getCutoff pass.1 2 pass.2 < 10 then 0 else getCutoff pass.1 2 pass.2

/-- The cutoff is computed in `i64`, so the message says it as it is. -/
theorem toInt_passCutoff (pass : Proof × ℤ) : (Int64.ofInt (passCutoff pass)).toInt = passCutoff pass := by
  have hsat : ∀ x, -2 ^ 63 ≤ satI64 x ∧ satI64 x < 2 ^ 63 := by
    intro x
    unfold satI64
    omega
  have hcutoff := hsat (satI64 (satI64 (pass.1.lastHashAt.toInt + 60) - 2) - pass.2)
  refine Int64.toInt_ofInt_of_le ?_ ?_ <;> unfold passCutoff getCutoff <;> split <;> omega

namespace ReadyPc

/-- The challenge that the pass hands out. -/
def challenge? : ReadyPc → Option Challenge
  | .sockets _ challenge _ | .nonce _ _ _ challenge _ | .remove _ _ challenge _ => some challenge
  | _ => none

/-- The pass is about to read the proof for its challenge. -/
def readsChallenge : ReadyPc → Bool
  | .readChallenge _ _ => true
  | _ => false

def allocates : ReadyPc → Bool
  | .nonce .. => true
  | _ => false

/-- The proof and the time of the pass, once it looks at the clock. -/
def pass (now : ℤ) (last : Proof × ℤ) : ReadyPc → Proof × ℤ
  | .getCutoff _ latestProof => (latestProof, now)
  | _ => last

/-- What a pass holds belongs together. -/
def Coherent (pass : Proof × ℤ) (counter : Challenge) : ReadyPc → Prop
  | .top | .readyClients | .readProof _ | .getCutoff _ _ => True
  | .bestHash _ => BitzPool.getCutoff pass.1 2 pass.2 < 10
  | .window _ _ cutoff | .readChallenge _ cutoff => cutoff = passCutoff pass
  | .sockets _ challenge cutoff | .nonce _ _ _ challenge cutoff | .remove _ _ challenge cutoff =>
    cutoff = passCutoff pass ∧ pass.1.challenge = challenge ∧ counter = challenge

variable {paused : Bool} {now : ℤ} {m m' : ReadyMemory} {i : ReadyInput} {pc pc' : ReadyPc} {task : Option SendTask}
  {last : Proof × ℤ} {counter : Challenge}

theorem Coherent.step (hpc : pc.Coherent last counter)
    (hC : pc.readsChallenge = true → m.mem.proof.challenge = last.1.challenge ∧ counter = m.mem.proof.challenge)
    (h : pc.step paused now m i = some (m', pc', task)) : pc'.Coherent (pc.pass now last) counter := by
  unfold ReadyPc.step at h
  split at h
  · cases h
    split <;> trivial
  · split at h <;> cases h
    split <;> trivial
  · cases h
    trivial
  · next clients latestProof =>
    cases h
    split
    · next hlow => exact hlow
    · next hlow =>
      show _ = passCutoff _
      rw [passCutoff, ReadyPc.pass, if_neg hlow]
  · cases h
    have hlow : BitzPool.getCutoff last.1 2 last.2 < 10 := hpc
    show (0 : ℤ) = passCutoff last
    rw [passCutoff, if_pos hlow]
  · cases h
    split
    · exact hpc
    · trivial
  · cases h
    obtain ⟨hproof, hcounter⟩ := hC rfl
    exact ⟨hpc, hproof.symm, hcounter⟩
  · cases h
    trivial
  · split at h <;> cases h <;> exact hpc
  · cases h
    exact hpc
  · cases h
    exact hpc
  · cases h

theorem allocates_eq_false (h : pc.step paused now m i = some (m', pc', none)) : pc.allocates = false := by
  cases pc with
  | nonce => cases i <;> cases h
  | _ => rfl

/-- Another reset of the counter. -/
theorem Coherent.reset (hpc : pc.Coherent last counter) {c : Challenge} (hc : ∀ c' ∈ pc.challenge?, c' = c) :
    pc.Coherent last c := by
  cases pc with
  | sockets | nonce | remove => exact ⟨hpc.1, hpc.2.1, (hc _ rfl).symm⟩
  | _ => exact hpc

end ReadyPc

/-- The challenge that a reset of the epoch is for; none when it discards the submissions. -/
def EpochOp.epoch? : EpochOp → Option Challenge
  | .resetEpoch c => c
  | _ => none

/-- The challenge for which the counter is reset, if it is, by the task whose operations these are. -/
def counterReset? : List EpochOp → Option Challenge
  | .resetNonce :: ops => ops.findSome? EpochOp.epoch?
  | _ => none

/-- The operations ahead of the task that an action moves. -/
def Mining.opsAhead (s : Mining) : Mining.Action → List EpochOp
  | .main (.op _) => s.main.ops
  | .watcher k (.op _) => (s.watchers[k]?.map fun w => w.pc.ops).getD []
  | _ => []

/-- Where the parts of a message come from: the proof and the time of its cutoff, and the challenge of the counter. -/
structure Origin where
  pass : Proof × ℤ
  counter : Challenge
  deriving DecidableEq

/-- The cutoff and the range are for the challenge of the message. -/
structure ServerMessageStartMining.Coherent (msg : ServerMessageStartMining) (o : Origin) : Prop where
  cutoff : msg.cutoff.toInt = passCutoff o.pass
  proof : o.pass.1.challenge = msg.challenge
  counter : o.counter = msg.challenge

/-- The pass under way, the challenge the counter was last reset for, and the origins of the messages so far. -/
structure Provenance where
  pass : Proof × ℤ
  counter : Challenge
  origins : List Origin

namespace Assigning

/-- What is noted of an action. -/
def watchOrigins (s : Assigning) : Action → Provenance → Provenance
  | .mining a, w => { w with counter := (counterReset? (s.mining.opsAhead a)).getD w.counter }
  | .assign _, w => { w with
    pass := s.pc.pass s.mining.now w.pass
    origins := w.origins ++ if s.pc.allocates then [⟨w.pass, w.counter⟩] else [] }
  | _, w => w

/-- The second read of the proof finds the challenge of the first, for which the counter was reset; and the counter is
not reset for another one while ranges are handed out. -/
def Settled (x : Assigning × Provenance) : Action → Prop
  | .assign _ => x.1.pc.readsChallenge = true →
      x.1.mining.mem.proof.challenge = x.2.pass.1.challenge ∧ x.2.counter = x.1.mining.mem.proof.challenge
  | .mining a => ∀ c ∈ counterReset? (x.1.mining.opsAhead a), ∀ c' ∈ x.1.pc.challenge?, c' = c
  | _ => True

instance (x : Assigning × Provenance) : (a : Action) → Decidable (Settled x a)
  | .assign _ => inferInstanceAs (Decidable (_ → _ ∧ _))
  | .mining a =>
    have : ∀ c, Decidable (∀ c' ∈ x.1.pc.challenge?, c' = c) := fun _ => Option.decidableForallMem _
    Option.decidableForallMem (counterReset? (x.1.mining.opsAhead a))
  | .ready _ | .send _ _ => isTrue trivial

/-- All messages are coherent, and the pass under way will send such. -/
structure Coherent (x : Assigning × Provenance) : Prop where
  pc : x.1.pc.Coherent x.2.pass x.2.counter
  length : x.2.origins.length = x.1.sends.length
  sends : ∀ {k : ℕ} {t : SendTask} {pc : SendPc} {o : Origin}, x.1.sends[k]? = some (t, pc) →
    x.2.origins[k]? = some o → t.msg.Coherent o

variable {su : MiningSetup} {s s' : Assigning} {a : Action} {w : Provenance}

/-- The spawned tasks do not change what they send. -/
private theorem Coherent.move (hx : Coherent (s, w)) {k : ℕ} {t : SendTask} {pc pc' : SendPc}
    (hk : s.sends[k]? = some (t, pc)) (hsends : s'.sends = s.sends.set k (t, pc')) (hpc : s'.pc = s.pc) :
    Coherent (s', w) := by
  refine ⟨?_, ?_, fun {j t' pc₁ o} hj ho => ?_⟩
  · show s'.pc.Coherent _ _
    rw [hpc]
    exact hx.pc
  · show w.origins.length = s'.sends.length
    rw [hsends, List.length_set]
    exact hx.length
  · have hj : s'.sends[j]? = some (t', pc₁) := hj
    rw [hsends] at hj
    rcases getElem?_set_cases hj with ⟨rfl, he⟩ | ⟨-, hj⟩
    · cases he
      exact hx.sends hk ho
    · exact hx.sends hj ho

theorem Coherent.step (hx : Coherent (s, w)) (hC : Settled (s, w) a) (h : Step su s a s') :
    Coherent (s', s.watchOrigins a w) := by
  cases h with
  | mining _ hmining =>
    refine ⟨?_, hx.length, hx.sends⟩
    show s.pc.Coherent w.pass ((counterReset? _).getD w.counter)
    rcases hreset : counterReset? (s.mining.opsAhead _) with _ | c
    · exact hx.pc
    · exact hx.pc.reset (hC c hreset)
  | ready => exact ⟨hx.pc, hx.length, hx.sends⟩
  | @move input ready pc hstep =>
    have hC : s.pc.readsChallenge = true →
        s.mining.mem.proof.challenge = w.pass.1.challenge ∧ w.counter = s.mining.mem.proof.challenge := hC
    have horigins : (s.watchOrigins (.assign input) w).origins = w.origins := by
      simp [watchOrigins, ReadyPc.allocates_eq_false hstep]
    refine ⟨hx.pc.step hC hstep, ?_, fun hk ho => ?_⟩
    · rw [horigins]
      exact hx.length
    · rw [horigins] at ho
      exact hx.sends hk ho
  | @allocate client sender clients challenge cutoff hpc =>
    have hcoherent := hx.pc
    rw [hpc] at hcoherent
    have hw : s.watchOrigins (.assign .go) w = { w with origins := w.origins ++ [⟨w.pass, w.counter⟩] } := by
      simp [watchOrigins, hpc, ReadyPc.allocates, ReadyPc.pass]
    rw [hw]
    refine ⟨hcoherent, ?_, fun {k t pc o} hk ho => ?_⟩
    · simp [hx.length]
    · rcases getElem?_concat_cases hk with hk | ⟨rfl, he⟩
      · have hlt : k < w.origins.length := hx.length ▸ (List.getElem?_eq_some_iff.1 hk).1
        rw [List.getElem?_append_left hlt] at ho
        exact hx.sends hk ho
      · cases he
        rw [← hx.length, List.getElem?_concat_length] at ho
        cases ho
        obtain ⟨hcutoff, hproof, hcounter⟩ := hcoherent
        exact ⟨hcutoff ▸ toInt_passCutoff w.pass, hproof, hcounter⟩
  | send hk => exact hx.move hk rfl rfl
  | read hk => exact hx.move hk rfl rfl
  | write hk => exact hx.move hk rfl rfl

/-- In every run in which passes find a settled epoch and keep it, the challenge, the cutoff and the range of every message
belong to one epoch. -/
theorem messages_coherent (su : MiningSetup) (proof : Proof) (db : Database) {x : Assigning × Provenance}
    {as : List Action}
    (hC : Along (watched (step su) watchOrigins) Settled (start proof db, ⟨(proof, 0), proof.challenge, []⟩) as)
    (h : run (watched (step su) watchOrigins) (start proof db, ⟨(proof, 0), proof.challenge, []⟩) as = some x) {k : ℕ}
    {t : SendTask} {pc : SendPc} (hk : x.1.sends[k]? = some (t, pc)) :
    ∃ o, x.2.origins[k]? = some o ∧ t.msg.Coherent o := by
  have hstart : Coherent (start proof db, ⟨(proof, 0), proof.challenge, []⟩) := by
    refine ⟨trivial, rfl, ?_⟩
    intro k t pc o hk
    cases hk
  have hx : Coherent x := by
    refine run_invariant (watched_invariant fun hx hC hstep => ?_) hstart hC h
    exact Coherent.step hx hC (step_sound hstep)
  have hlt : k < x.2.origins.length := hx.length ▸ (List.getElem?_eq_some_iff.1 hk).1
  exact ⟨_, List.getElem?_eq_getElem hlt, hx.sends hk (List.getElem?_eq_getElem hlt)⟩

/-- The start, with nothing noted. -/
def exampleOrigins : Assigning × Provenance := (exampleStart, ⟨(exampleProof, 0), exampleProof.challenge, []⟩)

/-- A pass for one client; the watcher enters the epoch of the next challenge, and passes for both clients follow. -/
def passesThroughEpoch : List Action :=
  connectTwo ++ assign 0 (.v4 0 1) ++ answer 0 (exampleBest 1 1) ++ nextEpoch ++ assign 1 (.v4 0 1) ++
    assign 2 (.v4 0 2)

theorem messages_coherent_example :
    ∃ x, run (watched (step exampleMiningSetup) watchOrigins) exampleOrigins passesThroughEpoch = some x ∧
      x.1.sends.map Prod.fst = [⟨exampleSender 1, ⟨filled 1, 58, 0, 39999999⟩⟩,
        ⟨exampleSender 1, ⟨filled 2, 58, 0, 39999999⟩⟩, ⟨exampleSender 2, ⟨filled 2, 58, 40000000, 79999999⟩⟩] ∧
      ∃ o, x.2.origins[2]? = some o ∧ ServerMessageStartMining.Coherent ⟨filled 2, 58, 40000000, 79999999⟩ o := by
  have hrun : ∃ x, run (watched (step exampleMiningSetup) watchOrigins) exampleOrigins passesThroughEpoch = some x ∧
      x.1.sends.map Prod.fst = [⟨exampleSender 1, ⟨filled 1, 58, 0, 39999999⟩⟩,
        ⟨exampleSender 1, ⟨filled 2, 58, 0, 39999999⟩⟩, ⟨exampleSender 2, ⟨filled 2, 58, 40000000, 79999999⟩⟩] ∧
      x.1.sends[2]? = some (⟨exampleSender 2, ⟨filled 2, 58, 40000000, 79999999⟩⟩, .done) :=
    exists_of_run (by decide +kernel)
  obtain ⟨x, h, hsends, hk⟩ := hrun
  exact ⟨x, h, hsends, messages_coherent exampleMiningSetup _ _ (by decide +kernel) h hk⟩

/-- A new proof comes over the websocket between the two reads.  The message says the new challenge, the cutoff of the
old proof, and a range from a counter that was not reset for the new challenge. -/
theorem message_mixed :
    ∃ x, run (watched (step exampleMiningSetup) watchOrigins) exampleOrigins
        (connectTwo ++ startPass (.v4 0 1) ++ newProof ⟨filled 2, 60⟩ ++ takeRange ++ [.send 0 (.send true)]) = some x ∧
      x.1.sends = [(⟨exampleSender 1, ⟨filled 2, 58, 0, 39999999⟩⟩, .read)] ∧
      x.2.origins = [⟨(exampleProof, 0), filled 1⟩] ∧
      ¬ ServerMessageStartMining.Coherent ⟨filled 2, 58, 0, 39999999⟩ ⟨(exampleProof, 0), filled 1⟩ := by
  obtain ⟨x, h, hsends, horigins⟩ : ∃ x, run (watched (step exampleMiningSetup) watchOrigins) exampleOrigins
      (connectTwo ++ startPass (.v4 0 1) ++ newProof ⟨filled 2, 60⟩ ++ takeRange ++ [.send 0 (.send true)]) = some x ∧
        x.1.sends = [(⟨exampleSender 1, ⟨filled 2, 58, 0, 39999999⟩⟩, .read)] ∧
        x.2.origins = [⟨(exampleProof, 0), filled 1⟩] := exists_of_run (by decide +kernel)
  exact ⟨x, h, hsends, horigins, fun hcoherent => absurd hcoherent.counter (by decide)⟩

end Assigning

end BitzPool
