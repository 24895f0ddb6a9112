import BitzPool.ClaimAuth
import BitzPool.ClientFrames
import BitzPool.NonceOwners
import BitzPool.WireMessages

/-!
# Nonces on the wire

A message to start mining carries the bounds of a range, a frame with a solution a nonce, both as eight bytes with the lowest
first; the message handler tests the nonce against the ranges that were registered for the client.  The bounds look
inclusive where they are computed, and are registered and tested as those of a half-open range.

`nonces_agree` puts encoder, parser and test together: what a client reads in its messages are the bounds its nonces are
tested against.
-/

namespace BitzPool

open Transition Update

/-! ### What is read back -/

/-- `i64::from_le_bytes`. -/
def i64FromLeBytes (bytes : List UInt8) : Int64 := (fromLeBytes bytes).toInt64

/-- The `n` bytes of a message from place `i` on. -/
def field (d : List UInt8) (i n : ℕ) : List UInt8 := (d.drop i).take n

theorem fromLeBytes_toLeBytes (n : UInt64) : fromLeBytes (toLeBytes n) = n := by
  have hdecode : fromLeBytes (toLeBytes n) = UInt64.ofNat (LittleEndian.decode (LittleEndian.encode 8 n.toNat)) := rfl
  have hlt : n.toNat < 256 ^ 8 := n.toNat_lt
  rw [hdecode, LittleEndian.decode_encode, Nat.mod_eq_of_lt hlt, UInt64.ofNat_toNat]

theorem i64FromLeBytes_toLeBytes (n : Int64) : i64FromLeBytes (i64ToLeBytes n) = n := by
  rw [i64FromLeBytes, i64ToLeBytes, fromLeBytes_toLeBytes]
  rfl

/-- A client reads the fields of a message at their places. -/
structure ServerMessageStartMining.ReadAtOffsets (msg : ServerMessageStartMining) : Prop where
  challenge : field msg.toMessageBinary 1 32 = msg.challenge.toList
  cutoff : i64FromLeBytes (field msg.toMessageBinary 33 8) = msg.cutoff
  start : fromLeBytes (field msg.toMessageBinary 41 8) = msg.nonceRangeStart
  stop : fromLeBytes (field msg.toMessageBinary 49 8) = msg.nonceRangeEnd

theorem ServerMessageStartMining.readAtOffsets (msg : ServerMessageStartMining) : msg.ReadAtOffsets := by
  have h1 : msg.toMessageBinary.drop 1 =
      fields.encode (msg.challenge, msg.cutoff, msg.nonceRangeStart, msg.nonceRangeEnd) := by
    rw [toMessageBinary_eq_encode]
    rfl
  have h33 : msg.toMessageBinary.drop 33 =
      (i64Codec.pair (u64Codec.pair u64Codec)).encode (msg.cutoff, msg.nonceRangeStart, msg.nonceRangeEnd) := by
    rw [show 33 = 1 + 32 from rfl, ← List.drop_drop, h1]
    exact FixedCodec.drop_encode_pair (FixedCodec.bytes 32) _ _
  have h41 : msg.toMessageBinary.drop 41 = (u64Codec.pair u64Codec).encode (msg.nonceRangeStart, msg.nonceRangeEnd) := by
    rw [show 41 = 33 + 8 from rfl, ← List.drop_drop, h33]
    exact FixedCodec.drop_encode_pair i64Codec _ _
  have h49 : msg.toMessageBinary.drop 49 = u64Codec.encode msg.nonceRangeEnd := by
    rw [show 49 = 41 + 8 from rfl, ← List.drop_drop, h41]
    exact FixedCodec.drop_encode_pair u64Codec _ _
  refine ⟨?_, ?_, ?_, ?_⟩
  · rw [field, h1]
    exact FixedCodec.take_encode_pair (FixedCodec.bytes 32) _ _
  · rw [field, h33]
    exact (congrArg i64FromLeBytes (FixedCodec.take_encode_pair i64Codec _ _)).trans (i64FromLeBytes_toLeBytes _)
  · rw [field, h41]
    exact (congrArg fromLeBytes (FixedCodec.take_encode_pair u64Codec _ _)).trans (fromLeBytes_toLeBytes _)
  · have hlength : (u64Codec.encode msg.nonceRangeEnd).length = 8 := u64Codec.length_encode _
    rw [field, h49, List.take_of_length_le (by omega)]
    exact fromLeBytes_toLeBytes _

/-! ### Frames with a solution -/

/-- `solution.n` for the nonce `n`. -/
def nonceBytes (n : UInt64) : List.Vector UInt8 8 := ⟨toLeBytes n, length_toLeBytes n⟩

theorem nonce_of_nonceBytes (digest : List.Vector UInt8 16) (n : UInt64) : (⟨digest, nonceBytes n⟩ : Solution).nonce = n :=
  fromLeBytes_toLeBytes n

/-- The frame of a client that has found the nonce `n`. -/
def solutionFrame (digest : List.Vector UInt8 16) (n : UInt64) (pubkey : Pubkey) (tail : List UInt8) : List UInt8 :=
  2 :: (digest.toList ++ toLeBytes n ++ pubkey.toList ++ tail)

theorem processMessageIndexed_solutionFrame (socketUuid : Uuid) (who : SocketAddr) (digest : List.Vector UInt8 16)
    (n : UInt64) (pubkey : Pubkey) (tail : List UInt8) :
    processMessageIndexed socketUuid who (.binary (solutionFrame digest n pubkey tail)) =
      some (some (.bestSolution ⟨who, ⟨digest, nonceBytes n⟩, socketUuid⟩), .continues) := by
  set d := digest.toList ++ toLeBytes n ++ pubkey.toList ++ tail with hd
  have hlength : d.length = 56 + tail.length := by simp [hd]; omega
  have hdigest : bytesFrom d 16 0 = digest := by
    apply List.Vector.toList_injective
    rw [toList_bytesFrom (by omega), List.drop_zero, hd, List.append_assoc, List.append_assoc,
      List.take_left' digest.toList_length]
  have hnonce : bytesFrom d 8 16 = nonceBytes n := by
    apply List.Vector.toList_injective
    rw [toList_bytesFrom (by omega), hd, List.append_assoc, List.append_assoc, List.drop_left' digest.toList_length,
      List.take_left' (length_toLeBytes n)]
    rfl
  show processMessageIndexed socketUuid who (.binary (2 :: d)) = _
  rw [processMessageIndexed_solution socketUuid who (by omega), hdigest, hnonce]

/-! ### The test of a nonce -/

/-- The test accepts a nonce that lies between the bounds which one of the messages carries. -/
theorem range_test_iff (dx : Drillx) (m : EpochMemory) (best : BestSolution) {msgs : List ServerMessageStartMining}
    (h : (m.clientNonceRanges.lookup best.uuid).getD [] = msgs.map ServerMessageStartMining.range) :
    HandlerPc.step dx best m .ranges = some (m, .socket) ↔
      ∃ msg ∈ msgs, fromLeBytes (field msg.toMessageBinary 41 8) ≤ best.solution.nonce ∧
        best.solution.nonce < fromLeBytes (field msg.toMessageBinary 49 8) := by
  have hcontains : ∀ msg : ServerMessageStartMining, msg.range.contains best.solution.nonce = true ↔
      fromLeBytes (field msg.toMessageBinary 41 8) ≤ best.solution.nonce ∧
        best.solution.nonce < fromLeBytes (field msg.toMessageBinary 49 8) := by
    intro msg
    rw [msg.readAtOffsets.start, msg.readAtOffsets.stop]
    show (decide (_ ≤ _) && decide (_ < _)) = true ↔ _
    rw [Bool.and_eq_true, decide_eq_true_iff, decide_eq_true_iff]
    rfl
  simp only [← hcontains]
  rcases hlookup : m.clientNonceRanges.lookup best.uuid with _ | ranges
  · have hnil : msgs = [] := by
      rw [hlookup] at h
      exact List.map_eq_nil_iff.1 h.symm
    simp [HandlerPc.step, hlookup, hnil]
  · have hranges : ranges = msgs.map ServerMessageStartMining.range := by
      rw [hlookup] at h
      exact h
    simp only [HandlerPc.step, hlookup, hranges, List.any_map, Option.some.injEq, Prod.mk.injEq, true_and]
    split
    · next hany => simpa using hany
    · next hany => simpa using hany

namespace Assigning

variable {su : MiningSetup} {s s' : Assigning} {a : Action}

/-- Every range that is registered, or will be again, is the range of a message to its client. -/
def Carried (s : Assigning) : Prop :=
  ∀ u l, HasRanges s u l → ∀ r ∈ l, ∃ x ∈ s.sends, x.1.sender.uuid = u ∧ x.1.msg.range = r

/-- A task does not change whom it sends what. -/
private theorem mem_sends_set {k : ℕ} {t : SendTask} {pc pc' : SendPc} (hk : s.sends[k]? = some (t, pc))
    {x : SendTask × SendPc} (hx : x ∈ s.sends) : ∃ y ∈ s.sends.set k (t, pc'), y.1 = x.1 := by
  obtain ⟨j, hj⟩ := List.mem_iff_getElem?.1 hx
  by_cases hkj : k = j
  · subst hkj
    rw [hk] at hj
    cases hj
    exact ⟨_, mem_set_self_of_getElem? hk, rfl⟩
  · exact ⟨x, List.mem_iff_getElem?.2 ⟨j, (List.getElem?_set_ne hkj).trans hj⟩, rfl⟩

/-- A step that keeps the messages, and registers no other ranges than those of the messages. -/
private theorem Carried.of_less (hs : s.Carried) (hsends : ∀ x ∈ s.sends, ∃ y ∈ s'.sends, y.1 = x.1)
    (hranges : ∀ {u l}, HasRanges s' u l → HasRanges s u l ∨
      ∀ r ∈ l, (∃ l', HasRanges s u l' ∧ r ∈ l') ∨ ∃ x ∈ s.sends, x.1.sender.uuid = u ∧ x.1.msg.range = r) :
    s'.Carried := by
  intro u l hl r hr
  have hx : ∃ x ∈ s.sends, x.1.sender.uuid = u ∧ x.1.msg.range = r := by
    rcases hranges hl with hl | hnew
    · exact hs u l hl r hr
    · rcases hnew r hr with ⟨l', hl', hr'⟩ | hx
      · exact hs u l' hl' r hr'
      · exact hx
  obtain ⟨x, hmem, hu, hrange⟩ := hx
  obtain ⟨y, hy, he⟩ := hsends x hmem
  exact ⟨y, hy, he ▸ hu, he ▸ hrange⟩

theorem Carried.step (hs : s.Carried) (h : Step su s a s') : s'.Carried := by
  cases h with
  | @mining b mining hb hstep =>
    refine hs.of_less (fun x hx => ⟨x, hx, rfl⟩) fun {u l} hl => Or.inl ?_
    exact hasRanges_of_mining hb (Mining.step_sound hstep) hl
  | ready | move =>
    exact hs.of_less (fun x hx => ⟨x, hx, rfl⟩) fun hl => Or.inl (hasRanges_of_ready hl)
  | allocate =>
    exact hs.of_less (fun x hx => ⟨x, List.mem_append_left _ hx, rfl⟩) fun hl => Or.inl (hasRanges_of_allocated hl)
  | @send k ok t hk =>
    refine hs.of_less (fun x hx => mem_sends_set hk hx) fun {u l} hl => Or.inl ?_
    exact hasRanges_of_set (fun he => by cases he) hl
  | @read k t hk =>
    refine hs.of_less (fun x hx => mem_sends_set hk hx) fun {u l} hl => Or.inl ?_
    exact hasRanges_of_set (fun he => .registered (SendPc.write.inj he)) hl
  | @write k t current hk =>
    refine hs.of_less (fun x hx => mem_sends_set hk hx) fun {u l} hl => ?_
    cases hl with
    | registered hl =>
      rcases lookup_insert_cases hl with ⟨rfl, rfl⟩ | ⟨-, hl⟩
      · refine Or.inr fun r hr => ?_
        rcases List.mem_append.1 hr with hr | hr
        · cases current with
          | none => cases hr
          | some l' => exact Or.inl ⟨l', .read (List.mem_of_getElem? hk) rfl, hr⟩
        · exact Or.inr ⟨_, List.mem_of_getElem? hk, rfl, (List.mem_singleton.1 hr).symm⟩
      · exact Or.inl (.registered hl)
    | read ht hu =>
      obtain ⟨j, hj⟩ := List.mem_iff_getElem?.1 ht
      rcases getElem?_set_cases hj with ⟨-, he⟩ | ⟨-, hj⟩
      · cases he
      · exact Or.inl (.read (List.mem_of_getElem? hj) hu)

theorem start_carried (proof : Proof) (db : Database) : (start proof db).Carried := by
  intro u l hl
  cases hl with
  | registered h => cases h
  | read ht => cases ht

/-- Every message can be read back at its offsets.  A frame with a nonce, whatever follows it, is parsed as the solution
with this nonce, and the test accepts it exactly when it lies between the bounds carried by one of the messages whose ranges
are registered for the client; and in every reachable state the registered ranges are those of messages to the client. -/
theorem nonces_agree (su : MiningSetup) (proof : Proof) (db : Database) {as : List Action} {s : Assigning}
    (h : run (step su) (start proof db) as = some s) (socketUuid : Uuid) (who : SocketAddr) :
    (∀ msg : ServerMessageStartMining, msg.ReadAtOffsets) ∧
      (∀ digest n pubkey tail, ∃ best : BestSolution,
        processMessageIndexed socketUuid who (.binary (solutionFrame digest n pubkey tail)) =
            some (some (.bestSolution best), .continues) ∧
          best.solution.d = digest ∧ best.solution.n.toList = toLeBytes n ∧
          ∀ (m : EpochMemory) (msgs : List ServerMessageStartMining),
            (m.clientNonceRanges.lookup socketUuid).getD [] = msgs.map ServerMessageStartMining.range →
              (HandlerPc.step su.drillx best m .ranges = some (m, .socket) ↔
                ∃ msg ∈ msgs, fromLeBytes (field msg.toMessageBinary 41 8) ≤ n ∧
                  n < fromLeBytes (field msg.toMessageBinary 49 8))) ∧
      ∃ msgs : List ServerMessageStartMining,
        (s.mining.mem.clientNonceRanges.lookup socketUuid).getD [] = msgs.map ServerMessageStartMining.range ∧
          ∀ msg ∈ msgs, ∃ x ∈ s.sends, x.1.sender.uuid = socketUuid ∧ x.1.msg = msg := by
  have hs : s.Carried := by
    refine run_invariant' (I := Carried) (fun hs hstep => ?_) (start_carried proof db) h
    exact Carried.step hs (step_sound hstep)
  refine ⟨fun msg => msg.readAtOffsets, fun digest n pubkey tail => ?_, ?_⟩
  · refine ⟨_, processMessageIndexed_solutionFrame socketUuid who digest n pubkey tail, rfl, rfl, fun m msgs hmsgs => ?_⟩
    have htest := range_test_iff su.drillx m ⟨who, ⟨digest, nonceBytes n⟩, socketUuid⟩ hmsgs
    rwa [nonce_of_nonceBytes] at htest
  · have hcarried : ∀ r ∈ (s.mining.mem.clientNonceRanges.lookup socketUuid).getD [],
        ∃ msg : ServerMessageStartMining, msg.range = r ∧ ∃ x ∈ s.sends, x.1.sender.uuid = socketUuid ∧ x.1.msg = msg := by
      intro r hr
      rcases hlookup : s.mining.mem.clientNonceRanges.lookup socketUuid with _ | l
      · rw [hlookup] at hr
        cases hr
      · rw [hlookup] at hr
        obtain ⟨x, hx, hu, hrange⟩ := hs _ _ (.registered hlookup) r hr
        exact ⟨x.1.msg, hrange, x, hx, hu, rfl⟩
    generalize (s.mining.mem.clientNonceRanges.lookup socketUuid).getD [] = ranges at hcarried ⊢
    induction ranges with
    | nil => exact ⟨[], rfl, by simp⟩
    | cons r ranges ih =>
      obtain ⟨msgs, rfl, hmsgs⟩ := ih fun r' hr' => hcarried r' (List.mem_cons_of_mem _ hr')
      obtain ⟨msg, rfl, hmsg⟩ := hcarried r List.mem_cons_self
      exact ⟨msg :: msgs, rfl, List.forall_mem_cons.2 ⟨hmsg, hmsgs⟩⟩

/-- A client who was given the first range finds the nonce 5. -/
theorem nonces_agree_example :
    ∃ s, run (step exampleMiningSetup) exampleStart (connectTwo ++ assign 0 (.v4 0 1)) = some s ∧
      s.mining.mem.clientNonceRanges.lookup 1 = some [⟨0, 39999999⟩] ∧
      ∃ best, processMessageIndexed 1 (.v4 0 1) (.binary (solutionFrame (List.Vector.replicate 16 1) 5 (filled 7) [9])) =
          some (some (.bestSolution best), .continues) ∧
        HandlerPc.step exampleDrillx best s.mining.mem .ranges = some (s.mining.mem, .socket) := by
  obtain ⟨s, h, hranges⟩ : ∃ s, run (step exampleMiningSetup) exampleStart (connectTwo ++ assign 0 (.v4 0 1)) = some s ∧
      s.mining.mem.clientNonceRanges.lookup 1 = some [⟨0, 39999999⟩] := exists_of_run (by decide +kernel)
  obtain ⟨best, hbest, -, -, htest⟩ :=
    (nonces_agree exampleMiningSetup _ _ h 1 (.v4 0 1)).2.1 (List.Vector.replicate 16 1) 5 (filled 7) [9]
  refine ⟨s, h, hranges, best, hbest, (htest s.mining.mem [⟨filled 1, 58, 0, 39999999⟩] ?_).2 ?_⟩
  · rw [hranges]
    rfl
  · exact ⟨_, List.mem_singleton_self _, by decide +kernel⟩

end Assigning

end BitzPool
