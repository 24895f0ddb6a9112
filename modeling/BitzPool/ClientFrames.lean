import BitzPool.Serving
import Mathlib.Data.List.GetD

/-!
# What a client's frame does to its connection task

`process_message` reads the type of a binary frame and the parts of a solution at fixed places of the payload, without a
look at its length: an index out of bounds is a panic of the task that receives the messages.  `processMessageIndexed` has
the index operations and the control flow that `processMessage` leaves out (`processMessage_eq`).

A frame of an unknown type is logged and the connection stays open.  `frames_handled_iff` says that a frame is treated so,
or as the solution it holds, exactly when it is not too short for what it says it is.
-/

namespace BitzPool

inductive ControlFlow
  | continues
  | breaks
  deriving DecidableEq

/-- `for i in 0..n { bytes[i] = d[i + b_index]; }`, where an index out of bounds is `none`. -/
def copyBytes (d : List UInt8) : (n bIndex : ℕ) → Option (List.Vector UInt8 n)
  | 0, _ => some .nil
  | n + 1, bIndex => (d[bIndex]?).bind fun x => (copyBytes d n (bIndex + 1)).map fun v => x ::ᵥ v

/-- What `process_message` puts into the channel and returns; `none` is a panic. -/
def processMessageIndexed (socketUuid : Uuid) (who : SocketAddr) :
    WsMessage → Option (Option ClientMessage × ControlFlow)
  | .text | .ping => some (none, .continues)
  | .close => some (none, .breaks)
  | .pong => some (some (.pong who socketUuid), .continues)
  | .binary d => do
    let messageType ← d[0]?
    if messageType = 0 then return (some (.ready who), .continues)
    else if messageType = 1 then return (some (.mining who), .continues)
    else if messageType = 2 then
      let solutionBytes ← copyBytes d 16 1
      let nonce ← copyBytes d 8 (1 + 16)
      -- nothing looks at the key
      let _ ← copyBytes d 32 (1 + 16 + 8)
      return (some (.bestSolution ⟨who, ⟨solutionBytes, nonce⟩, socketUuid⟩), .continues)
    else return (none, .continues)

/-- The loop of `handle_socket` over what it receives: what is put into the channel, and whether the task panics. -/
def receiveAll (socketUuid : Uuid) (who : SocketAddr) : List WsMessage → List ClientMessage × Bool
  | [] => ([], false)
  | msg :: msgs =>
    match processMessageIndexed socketUuid who msg with
    | none => ([], true)
    | some (sent, .breaks) => (sent.toList, false)
    | some (sent, .continues) =>
      (sent.toList ++ (receiveAll socketUuid who msgs).1, (receiveAll socketUuid who msgs).2)

/-! ### The copy loops -/

theorem bytesFrom_succ (d : List UInt8) (n i : ℕ) : bytesFrom d (n + 1) i = d.getD i 0 ::ᵥ bytesFrom d n (i + 1) := by
  have htail : ∀ k : Fin n, i + k.succ.val = i + 1 + k.val := by
    intro k
    rw [Fin.val_succ]
    omega
  show (_ ::ᵥ List.Vector.ofFn _) = (_ ::ᵥ List.Vector.ofFn _)
  simp only [htail, Fin.val_zero, Nat.add_zero]

theorem toList_bytesFrom {d : List UInt8} {n i : ℕ} (h : i + n ≤ d.length) :
    (bytesFrom d n i).toList = (d.drop i).take n := by
  induction n generalizing i with
  | zero => simp
  | succ n ih =>
    have hi : i < d.length := by omega
    rw [bytesFrom_succ, List.Vector.toList_cons, ih (by omega), List.drop_eq_getElem_cons hi, List.take_succ_cons,
      List.getD_eq_getElem _ _ hi]

/-- A loop that stays in bounds copies what is there. -/
theorem copyBytes_of_le {d : List UInt8} {n i : ℕ} (h : i + n ≤ d.length) : copyBytes d n i = some (bytesFrom d n i) := by
  induction n generalizing i with
  | zero => rfl
  | succ n ih =>
    have hi : i < d.length := by omega
    rw [copyBytes, List.getElem?_eq_getElem hi, ih (by omega), bytesFrom_succ, List.getD_eq_getElem _ _ hi]
    rfl

theorem copyBytes_of_lt {d : List UInt8} {n i : ℕ} (hi : i ≤ d.length) (h : d.length < i + n) :
    copyBytes d n i = none := by
  induction n generalizing i with
  | zero => omega
  | succ n ih =>
    by_cases hlt : i < d.length
    · rw [copyBytes, ih (by omega) (by omega), List.getElem?_eq_getElem hlt]
      rfl
    · rw [copyBytes, List.getElem?_eq_none (by omega)]
      rfl

/-! ### Frames -/

/-- The frame has no byte for its type, or says that it holds a solution and is too short for one. -/
def WsMessage.short : WsMessage → Bool
  | .binary [] => true
  | .binary (messageType :: d) => messageType = 2 ∧ d.length < 16 + 8 + 32
  | .text | .close | .ping | .pong => false

/-- A frame that holds a solution. -/
theorem processMessageIndexed_solution (socketUuid : Uuid) (who : SocketAddr) {d : List UInt8}
    (h : 16 + 8 + 32 ≤ d.length) :
    processMessageIndexed socketUuid who (.binary (2 :: d)) =
      some (some (.bestSolution ⟨who, ⟨bytesFrom d 16 0, bytesFrom d 8 16⟩, socketUuid⟩), .continues) := by
  have hshift : ∀ n i, bytesFrom (2 :: d) n (i + 1) = bytesFrom d n i := by
    intro n i
    unfold bytesFrom
    congr 1
    funext k
    rw [show i + 1 + k.val = (i + k.val) + 1 by omega, List.getD_cons_succ]
  have hcopy : ∀ {n i}, i + n ≤ d.length → copyBytes (2 :: d) n (i + 1) = some (bytesFrom d n i) := by
    intro n i hle
    rw [copyBytes_of_le (by rw [List.length_cons]; omega), hshift]
  have hdigest : copyBytes (2 :: d) 16 1 = some (bytesFrom d 16 0) := hcopy (by omega)
  have hnonce : copyBytes (2 :: d) 8 (1 + 16) = some (bytesFrom d 8 16) := hcopy (by omega)
  have hkey : copyBytes (2 :: d) 32 (1 + 16 + 8) = some (bytesFrom d 32 24) := hcopy (by omega)
  simp [processMessageIndexed, hdigest, hnonce, hkey]

/-- One of the copy loops runs out of the payload. -/
theorem processMessageIndexed_short {socketUuid : Uuid} {who : SocketAddr} {msg : WsMessage} (h : msg.short = true) :
    processMessageIndexed socketUuid who msg = none := by
  unfold WsMessage.short at h
  split at h
  · rfl
  · next messageType d =>
    obtain ⟨rfl, hlt⟩ : messageType = 2 ∧ d.length < 16 + 8 + 32 := of_decide_eq_true h
    have hcopy : copyBytes (2 :: d) 16 1 = none ∨ copyBytes (2 :: d) 8 (1 + 16) = none ∨
        copyBytes (2 :: d) 32 (1 + 16 + 8) = none := by
      by_cases h16 : d.length < 16
      · exact Or.inl (copyBytes_of_lt (by simp) (by rw [List.length_cons]; omega))
      · by_cases h24 : d.length < 24
        · exact Or.inr (Or.inl (copyBytes_of_lt (by rw [List.length_cons]; omega) (by rw [List.length_cons]; omega)))
        · exact Or.inr (Or.inr (copyBytes_of_lt (by rw [List.length_cons]; omega) (by rw [List.length_cons]; omega)))
    rcases hcopy with hnone | hnone | hnone <;> simp [processMessageIndexed, hnone]
  all_goals cases h

/-- `processMessage` has no result for a panic and none for a close. -/
theorem processMessage_eq (socketUuid : Uuid) (who : SocketAddr) (msg : WsMessage) :
    processMessage socketUuid who msg =
      (processMessageIndexed socketUuid who msg).bind fun r => if r.2 = .breaks then none else some r.1 := by
  by_cases hshort : msg.short = true
  · rw [processMessageIndexed_short hshort]
    unfold WsMessage.short at hshort
    split at hshort
    · rfl
    · next messageType d =>
      obtain ⟨rfl, hlt⟩ : messageType = 2 ∧ d.length < 16 + 8 + 32 := of_decide_eq_true hshort
      simp [processMessage, show ¬ 56 ≤ d.length by omega]
    all_goals cases hshort
  · cases msg with
    | text | close | ping | pong => rfl
    | binary d =>
      cases d with
      | nil => exact absurd rfl hshort
      | cons messageType d =>
        by_cases h2 : messageType = 2
        · subst h2
          have hle : 16 + 8 + 32 ≤ d.length := by simpa [WsMessage.short] using hshort
          rw [processMessageIndexed_solution _ _ hle]
          simp [processMessage, hle]
        · simp only [processMessage, processMessageIndexed, h2]
          by_cases h0 : messageType = 0
          · simp [h0]
          · by_cases h1 : messageType = 1 <;> simp [h0, h1, h2]

/-- What a client may expect of a frame: the task goes on unless the frame closes the connection, and takes it for a
solution only if it holds one. -/
def Handled (socketUuid : Uuid) (who : SocketAddr) (msg : WsMessage) : Prop :=
  ∃ sent flow, processMessageIndexed socketUuid who msg = some (sent, flow) ∧ (flow = .breaks ↔ msg = .close) ∧
    ∀ best, sent = some (.bestSolution best) →
      ∃ (digest : List.Vector UInt8 16) (nonce : List.Vector UInt8 8) (pubkey : Pubkey) (tail : List UInt8),
        msg = .binary (2 :: (digest.toList ++ nonce.toList ++ pubkey.toList ++ tail)) ∧
          best = ⟨who, ⟨digest, nonce⟩, socketUuid⟩

/-- The parts of a payload that is long enough. -/
private theorem parts_of_payload {d : List UInt8} (h : 16 + 8 + 32 ≤ d.length) :
    d = (bytesFrom d 16 0).toList ++ (bytesFrom d 8 16).toList ++ (bytesFrom d 32 24).toList ++ d.drop 56 := by
  rw [toList_bytesFrom (by omega), toList_bytesFrom (by omega), toList_bytesFrom (by omega), List.drop_zero,
    ← List.take_add, ← List.take_add, List.take_append_drop]

private theorem handled_of_not_short (socketUuid : Uuid) (who : SocketAddr) {msg : WsMessage} (h : msg.short = false) :
    Handled socketUuid who msg := by
  cases msg with
  | text | close | ping | pong => exact ⟨_, _, rfl, by simp, by simp⟩
  | binary d =>
    cases d with
    | nil => cases h
    | cons messageType d =>
      by_cases h2 : messageType = 2
      · subst h2
        have hle : 16 + 8 + 32 ≤ d.length := by simpa [WsMessage.short] using h
        refine ⟨_, _, processMessageIndexed_solution _ _ hle, by simp, fun best hbest => ?_⟩
        cases hbest
        exact ⟨_, _, bytesFrom d 32 24, d.drop 56, congrArg (fun d => WsMessage.binary (2 :: d)) (parts_of_payload hle), rfl⟩
      · have hother : ∃ sent, processMessageIndexed socketUuid who (.binary (messageType :: d)) = some (sent, .continues) ∧
            ∀ best, sent ≠ some (.bestSolution best) := by
          by_cases h0 : messageType = 0
          · exact ⟨some (.ready who), by simp [processMessageIndexed, h0], by simp⟩
          · by_cases h1 : messageType = 1
            · exact ⟨some (.mining who), by simp [processMessageIndexed, h1], by simp⟩
            · exact ⟨none, by simp [processMessageIndexed, h0, h1, h2], by simp⟩
        obtain ⟨sent, hsent, hne⟩ := hother
        exact ⟨sent, .continues, hsent, by simp, fun best hbest => absurd hbest (hne best)⟩

/-- A message is handled exactly when it is not short; so the task that receives messages panics exactly at a short one
that comes before the connection is closed. -/
theorem frames_handled_iff (socketUuid : Uuid) (who : SocketAddr) :
    (∀ msg, Handled socketUuid who msg ↔ msg.short = false) ∧
      ∀ msgs, (receiveAll socketUuid who msgs).2 = false ↔
        ∀ msg ∈ msgs.takeWhile fun msg => msg ≠ .close, msg.short = false := by
  have hiff : ∀ msg, Handled socketUuid who msg ↔ msg.short = false := by
    intro msg
    constructor
    · rintro ⟨sent, flow, hprocess, -⟩
      by_contra hshort
      rw [processMessageIndexed_short (Bool.eq_true_of_not_eq_false hshort)] at hprocess
      cases hprocess
    · exact handled_of_not_short socketUuid who
  refine ⟨hiff, fun msgs => ?_⟩
  induction msgs with
  | nil => simp [receiveAll]
  | cons msg msgs ih =>
    by_cases hshort : msg.short = true
    · have hclose : msg ≠ .close := by
        rintro rfl
        cases hshort
      rw [receiveAll, processMessageIndexed_short hshort]
      simp [hclose, hshort]
    · have hshort : msg.short = false := Bool.eq_false_of_not_eq_true hshort
      obtain ⟨sent, flow, hprocess, hflow, -⟩ := (hiff msg).2 hshort
      rw [receiveAll, hprocess]
      cases flow with
      | breaks => simp [hflow.1 rfl]
      | continues =>
        have hclose : msg ≠ .close := fun hclose => absurd (hflow.2 hclose) (by simp)
        simp [hclose, hshort, ih]

/-- A frame without a payload, and one that says it holds a solution and holds none. -/
theorem frames_panic :
    ¬ Handled 0 (.v4 0 1) (.binary []) ∧ ¬ Handled 0 (.v4 0 1) (.binary (2 :: List.replicate 55 0)) ∧
      receiveAll 0 (.v4 0 1) [.pong, .binary [], .pong] = ([.pong (.v4 0 1) 0], true) := by
  refine ⟨?_, ?_, by decide⟩ <;> rintro ⟨sent, flow, hprocess, -⟩ <;> cases hprocess

end BitzPool
