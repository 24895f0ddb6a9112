import BitzPool.Signup
import BitzPool.Lib.Update

/-!
# The sign-up loop of the websocket handlers

`ws_handler_pubkey` and `ws_handler_pubkey_v3` take every error of their first lookup for a miner who is not there, and sign
the miner up in a loop that takes every error for one that passes.  The unique key of `miners` makes a sign-up fail for good
when the miner is there: after a lookup that failed for another reason, or when somebody else has signed the miner up since.

`loop_ends_iff` says that an iteration which reaches the database, with a pool there, ends the loop exactly when the pubkey
has no row, and that a loop whose pubkey has one is never left.
-/

namespace BitzPool

open Keyed Transition Update

namespace Signups

/-- The request whose loop makes an attempt, when the attempt reaches the database and there is a pool. -/
def attempting? (s : Signups) : Action → Option (ℕ × WsRequest)
  | .conns (.requestStep k (.signup .executed id)) =>
    if s.db.pool.isSome ∧ freshId s.db id = true then
      (s.conns.requests[k]?.filter fun t => t.2 = .signup).map fun t => (k, t.1)
    else none
  | _ => none

/-- The loop ends with such an attempt. -/
def Ends (verify : Verify) (s : Signups) (a : Action) : Prop :=
  ∀ x ∈ s.attempting? a, ∀ s' ∈ step verify s a, s'.conns.requests[x.1]? = some (x.2, .getSignedUp)

/-- The pubkey has no row when the attempt is made. -/
def Unregistered (s : Signups) (a : Action) : Prop := ∀ x ∈ s.attempting? a, ¬ s.db.miners.Has x.2.pubkey

instance (verify : Verify) (s : Signups) (a : Action) : Decidable (Ends verify s a) :=
  have : ∀ x : ℕ × WsRequest,
      Decidable (∀ s' ∈ step verify s a, s'.conns.requests[x.1]? = some (x.2, .getSignedUp)) :=
    fun _ => Option.decidableForallMem _
  Option.decidableForallMem (s.attempting? a)

instance (s : Signups) (a : Action) : Decidable (Unregistered s a) := Option.decidableForallMem (s.attempting? a)

variable {verify : Verify} {s s' : Signups} {a : Action}

theorem attempting?_eq_some {k : ℕ} {r : WsRequest} (h : s.attempting? a = some (k, r)) :
    ∃ id, a = .conns (.requestStep k (.signup .executed id)) ∧ s.db.pool.isSome ∧ freshId s.db id = true ∧
      s.conns.requests[k]? = some (r, .signup) := by
  unfold attempting? at h
  split at h
  · next k' id =>
    split at h
    · next hpool =>
      obtain ⟨⟨r', pc⟩, hfilter, he⟩ := Option.map_eq_some_iff.1 h
      obtain ⟨hk, hpc⟩ := Option.filter_eq_some_iff.1 hfilter
      cases he
      cases of_decide_eq_true hpc
      exact ⟨id, rfl, hpool.1, hpool.2, hk⟩
    · cases h
  · cases h

/-- An attempt that reaches the database. -/
theorem attempt_step (verify : Verify) {k : ℕ} {r : WsRequest} {id : MinerId} (hs : s.db.InStep) (hpool : s.db.pool.isSome)
    (hid : freshId s.db id = true) (hk : s.conns.requests[k]? = some (r, .signup)) :
    ∃ s', step verify s (.conns (.requestStep k (.signup .executed id))) = some s' ∧
      s'.conns.requests[k]? = some (r, if s.db.miners.Has r.pubkey then .signup else .getSignedUp) := by
  have hlt : k < s.conns.requests.length := (List.getElem?_eq_some_iff.1 hk).1
  have hstep : ∀ {m pc}, WsPc.step verify r ⟨s.conns.db, s.conns.sockets⟩ (.signup .executed id) .signup = some (m, pc) →
      step verify s (.conns (.requestStep k (.signup .executed id))) =
        some { s with conns := { s.conns with
          db := m.db, sockets := m.sockets, requests := s.conns.requests.set k (r, pc) } } := by
    intro m pc hpc
    simp [step, Action.newId?, hid, stepConns, Connections.step, Connections.stepRequest, hk, hpc]
  by_cases hhas : s.db.miners.Has r.pubkey
  · have hquery : signupQuery id r.pubkey s.db = none := by
      rw [Option.eq_none_iff_forall_ne_some]
      rintro ⟨x, db'⟩ hsome
      exact (signupQuery_rows hsome).1 hhas
    have hcall : signupUserTransaction .executed id r.pubkey s.conns.db = (.error .queryFailed, s.conns.db) := by
      have hquery : signupQuery id r.pubkey s.conns.db = none := hquery
      simp [signupUserTransaction, interact, hquery]
    refine ⟨_, hstep (by simp only [WsPc.step, hcall]; rfl), ?_⟩
    rw [if_pos hhas]
    exact List.getElem?_set_self hlt
  · obtain ⟨db', hquery⟩ := signupQuery_some hs (of_decide_eq_true hid) hpool hhas
    have hcall : signupUserTransaction .executed id r.pubkey s.conns.db = (.ok (), db') := by
      have hquery : signupQuery id r.pubkey s.conns.db = some ((), db') := hquery
      simp [signupUserTransaction, interact, hquery]
    refine ⟨_, hstep (by simp only [WsPc.step, hcall]; rfl), ?_⟩
    rw [if_neg hhas]
    exact List.getElem?_set_self hlt

private theorem ends_iff (hs : s.db.InStep) : Ends verify s a ↔ Unregistered s a := by
  refine forall_congr' fun x => forall_congr' fun hx => ?_
  obtain ⟨k, r⟩ := x
  obtain ⟨id, rfl, hpool, hid, hk⟩ := attempting?_eq_some hx
  obtain ⟨s', hstep, hk'⟩ := attempt_step verify hs hpool hid hk
  constructor
  · intro hends hhas
    have hsome := hends s' hstep
    rw [hk', if_pos hhas] at hsome
    cases hsome
  · intro hhas t ht
    cases hstep.symm.trans ht
    rw [hk', if_neg hhas]

/-! ### Loops that are never left -/

/-- The loop of the request `k` tries to sign up a miner who is there. -/
def Stuck (k : ℕ) (r : WsRequest) (s : Signups) : Prop :=
  s.conns.requests[k]? = some (r, .signup) ∧ s.db.miners.Has r.pubkey

/-- No pubkey loses its row. -/
theorem has_step {pubkey : Pubkey} (hhas : s.db.miners.Has pubkey) (h : step verify s a = some s') :
    s'.db.miners.Has pubkey := by
  rcases step_db h with hkeys | ⟨o, id, pubkey', hdb⟩
  · have hminers : s'.db.miners.rows = s.db.miners.rows := (Prod.mk.inj hkeys).1
    rw [Table.Has, hminers]
    exact hhas
  · rw [hdb, signupUserTransaction]
    rcases interact_cases o (signupQuery id pubkey') s.db with ⟨e, he⟩ | ⟨x, db', -, hq, he⟩
    · rw [he]
      exact hhas
    · rw [he]
      show pubkey ∈ db'.miners.rows.map Miner.pubkey
      rw [(signupQuery_rows hq).2.1, List.map_append]
      exact List.mem_append_left _ hhas

/-- Whatever the next attempt meets, it fails. -/
private theorem signup_stuck {r : WsRequest} {m m' : WsMemory} {i : WsInput} {pc : WsPc} (hhas : m.db.miners.Has r.pubkey)
    (h : WsPc.step verify r m i .signup = some (m', pc)) : pc = .signup := by
  cases i with
  | signup o id =>
    simp only [WsPc.step] at h
    split at h
    · next db hcall =>
      exact absurd hhas (signupQuery_rows (interact_ok hcall).2).1
    · cases h
      rfl
  | _ => cases h

theorem Stuck.step {k : ℕ} {r : WsRequest} (hs : Stuck k r s) (h : step verify s a = some s') : Stuck k r s' := by
  obtain ⟨hk, hhas⟩ := hs
  refine ⟨?_, has_step hhas h⟩
  unfold Signups.step at h
  split at h
  · cases a with
    | conns a =>
      cases a with
      | requestStep j input =>
        obtain ⟨conns, hstep, rfl⟩ := Option.map_eq_some_iff.1 h
        replace hstep : s.conns.stepRequest verify j input = some conns := hstep
        simp only [Connections.stepRequest, Option.bind_eq_bind, Option.bind_eq_some_iff, Option.pure_def,
          Option.some.injEq] at hstep
        obtain ⟨⟨r', pc⟩, hj, ⟨m, pc'⟩, hpc, rfl⟩ := hstep
        show (s.conns.requests.set j (r', pc'))[k]? = some (r, .signup)
        by_cases hjk : j = k
        · subst hjk
          rw [hk] at hj
          cases hj
          rw [List.getElem?_set_self (List.getElem?_eq_some_iff.1 hk).1, signup_stuck hhas hpc]
        · rw [List.getElem?_set_ne hjk]
          exact hk
      | request r' =>
        cases h
        exact (List.getElem?_append_left (List.getElem?_eq_some_iff.1 hk).1).trans hk
      | database db => cases h
      | tick | remove => cases h; exact hk
    | post | startup =>
      cases h
      exact hk
    | postStep j input =>
      simp only [stepPost, Option.bind_eq_bind, Option.bind_eq_some_iff, Option.pure_def, Option.some.injEq] at h
      obtain ⟨t, -, x, -, rfl⟩ := h
      exact hk
    | startupStep j input =>
      simp only [stepStartup, Option.bind_eq_bind, Option.bind_eq_some_iff, Option.pure_def, Option.some.injEq] at h
      obtain ⟨t, -, x, -, rfl⟩ := h
      exact hk
    | other db =>
      dsimp only at h
      split at h <;> cases h
      exact hk
  · cases h

/-- In every run the loops end at their first attempt that reaches the database with a pool there, exactly when no such
attempt finds its pubkey in `miners`; and a loop whose pubkey is there goes on for ever. -/
theorem loop_ends_iff (verify : Verify) {s₀ : Signups} (h0 : s₀.db.InStep) (as : List Action) :
    (Along (step verify) (Ends verify) s₀ as ↔ Along (step verify) Unregistered s₀ as) ∧
      ∀ {s s' : Signups} {bs : List Action} {k : ℕ} {r : WsRequest}, run (step verify) s bs = some s' →
        s.conns.requests[k]? = some (r, .signup) → s.db.miners.Has r.pubkey →
          s'.conns.requests[k]? = some (r, .signup) := by
  constructor
  · exact along_iff_of_invariant (I := fun s : Signups => s.db.InStep) (fun hs _ => InStep.step hs) ends_iff h0
  · intro s s' bs k r h hk hhas
    exact (run_invariant' (I := Stuck k r) Stuck.step ⟨hk, hhas⟩ h).1

/-! ### Data for examples -/

def exampleRequest (pubkey : Pubkey) : WsRequest := ⟨.v4 0 1, pubkey, 0, .pubkey⟩

/-- A new miner whose first attempt finds no connection. -/
def exampleNewMiner : List Action :=
  [.conns (.request (exampleRequest (filled 8))), .conns (.requestStep 0 (.call .executed)),
    .conns (.requestStep 0 (.signup .noConnection 2)), .conns (.requestStep 0 (.signup .executed 2))]

theorem loop_ends_example :
    Along (step fun _ _ _ => true) (Ends fun _ _ _ => true) (start (Database.single (filled 7) 0)) exampleNewMiner := by
  have h0 : (start (Database.single (filled 7) 0)).db.InStep := by
    constructor
    · intro m hm
      cases List.mem_singleton.1 hm
      exact List.mem_singleton_self _
    · intro r hr
      cases List.mem_singleton.1 hr
      exact ⟨_, List.mem_singleton_self _, rfl⟩
  exact (loop_ends_iff _ h0 exampleNewMiner).1.2 (by decide +kernel)

/-- The first lookup of a miner who is there finds no connection; the database is reachable from then on. -/
def exampleLookupFails : List Action :=
  [.conns (.request (exampleRequest (filled 7))), .conns (.requestStep 0 (.call .noConnection)),
    .conns (.requestStep 0 (.signup .executed 2)), .conns (.requestStep 0 (.signup .executed 3))]

/-- Two connections of a new miner, both of which find no row. -/
def exampleTwoConnections : List Action :=
  [.conns (.request (exampleRequest (filled 8))), .conns (.request (exampleRequest (filled 8))),
    .conns (.requestStep 0 (.call .executed)), .conns (.requestStep 1 (.call .executed)),
    .conns (.requestStep 0 (.signup .executed 2)), .conns (.requestStep 1 (.signup .executed 3))]

/-- In both runs a loop goes on although its attempt reached the database. -/
theorem loop_stuck :
    (¬ Along (step fun _ _ _ => true) (Ends fun _ _ _ => true) (start (Database.single (filled 7) 0)) exampleLookupFails ∧
      ∃ s, run (step fun _ _ _ => true) (start (Database.single (filled 7) 0)) exampleLookupFails = some s ∧
        s.conns.requests.map Prod.snd = [.signup]) ∧
    ¬ Along (step fun _ _ _ => true) (Ends fun _ _ _ => true) (start (Database.single (filled 7) 0))
        exampleTwoConnections ∧
      ∃ s, run (step fun _ _ _ => true) (start (Database.single (filled 7) 0)) exampleTwoConnections = some s ∧
        s.conns.requests.map Prod.snd = [.getSignedUp, .signup] := by
  refine ⟨⟨by decide +kernel, exists_of_run (by decide +kernel)⟩, by decide +kernel, exists_of_run (by decide +kernel)⟩

end Signups

end BitzPool
