import BitzPool.EpochEntry

/-!
# Making sure that a challenge has a row

Watchers and the main loop insert a challenge again and again until the insertion succeeds or the challenge is found;
a payout task looks its challenge up again and again, and in between runs the same loop.  A duplicate is told from a
failure by the second query only, and several tasks may work on one challenge.  Whatever the others do, every such loop
ends once its calls are executed, with one row for its challenge (`challenge_ensured`).
-/

namespace BitzPool

open Keyed Transition

/-- A loop that makes sure that a challenge has a row: the one of a watcher or of the main loop, with the operations
after it, or the one of a payout task. -/
inductive EnsureLoop
  | insertOrVerify (t : EpochTask) (c : Challenge) (rest : List EpochOp)
  | getOrCreate (k : ℕ) (r : Round) (fullRewards : UInt64)

/-- The call that a loop makes next: `get` is the query of the outer loop. -/
inductive EnsurePc
  | get
  | add
  | verify
  deriving DecidableEq

namespace EnsureLoop

open Mining

def challenge : EnsureLoop → Challenge
  | .insertOrVerify _ c _ => c
  | .getOrCreate _ r _ => r.challenge

/-- The next call of the loop, with its outcome. -/
def call (l : EnsureLoop) (o : CallOutcome) : Action :=
  match l with
  | .insertOrVerify t _ _ => t.call o
  | .getOrCreate k _ _ => .payout k (.call o)

/-- The place of a payout task for a place of its loop. -/
def payoutPc (full : UInt64) : EnsurePc → PayoutPc
  | .get => .getChallenge full
  | .add => .addChallenge full
  | .verify => .verifyChallenge full

/-- The task is in the loop, and makes this call next. -/
def At (s : Mining) : EnsureLoop → EnsurePc → Prop
  | .insertOrVerify _ _ _, .get => False
  | .insertOrVerify t c rest, .add => s.entering? t = some (.addChallenge c :: rest)
  | .insertOrVerify t c rest, .verify => s.entering? t = some (.verifyChallenge c :: rest)
  | .getOrCreate k r full, pc => s.payouts[k]? = some (r, payoutPc full pc)

/-- The task is in the loop. -/
def Running (s : Mining) (l : EnsureLoop) : Prop := ∃ pc, l.At s pc

/-- The task is past the loop; a payout task goes on with the id of a row with its challenge. -/
def Past (s : Mining) : EnsureLoop → Prop
  | .insertOrVerify t _ rest => s.entering? t = some rest
  | .getOrCreate k r full => ∃ row ∈ s.mem.db.challenges.rows, row.challenge = r.challenge ∧
      s.payouts[k]? = some (r, .updateRewards full row.id)

/-- The task goes on after the loop, a payout task with the id `id`. -/
def Returns (s : Mining) (id : RowId) : EnsureLoop → Prop
  | .insertOrVerify t _ rest => s.entering? t = some rest
  | .getOrCreate k r full => s.payouts[k]? = some (r, .updateRewards full id)

/-- Where the loop goes when a call finds or adds its row: the outer loop of a payout task looks the row up once more. -/
def back : EnsureLoop → Option EnsurePc
  | .insertOrVerify _ _ _ => none
  | .getOrCreate _ _ _ => some .get

/-- Where the loop goes from a call that succeeds, or fails. -/
def next (l : EnsureLoop) (ok : Bool) : EnsurePc → Option EnsurePc
  | .get => if ok then none else some .add
  | .add => if ok then l.back else some .verify
  | .verify => if ok then l.back else some .add

end EnsureLoop

/-- A call succeeds: an insertion when there is no row, a query when there is one. -/
def EnsurePc.succeeds (o : CallOutcome) (found : Bool) : EnsurePc → Bool
  | .add => o = .executed && !found
  | .get | .verify => o = .executed && found

/-- A bound for the executed calls that a loop still makes, when its challenge has a row or not. -/
def EnsurePc.rank (found : Bool) : EnsurePc → ℕ
  | .get => if found then 1 else 4
  | .add => 3
  | .verify => if found then 2 else 4

/-- A row that is added lowers the rank. -/
theorem EnsurePc.rank_le {found found' : Bool} (h : found = true → found' = true) (pc : EnsurePc) :
    pc.rank found' ≤ pc.rank found := by
  cases pc <;> cases found <;> cases found' <;> simp_all [rank]

/-! ### The calls -/

section Calls

variable {c : Challenge} {o : CallOutcome} {db : Database}

/-- The table of challenges keeps all its rows, and may have got more. -/
def Database.Appends (db db' : Database) : Prop := ∃ rows, db'.challenges.rows = db.challenges.rows ++ rows

theorem Database.Appends.refl (db : Database) : db.Appends db := ⟨[], (List.append_nil _).symm⟩

theorem Database.Appends.trans {db₁ db₂ db₃ : Database} (h : db₁.Appends db₂) (h' : db₂.Appends db₃) :
    db₁.Appends db₃ := by
  obtain ⟨rows, hrows⟩ := h
  obtain ⟨rows', hrows'⟩ := h'
  exact ⟨rows ++ rows', by rw [hrows', hrows, List.append_assoc]⟩

theorem Database.Appends.has {db' : Database} (h : db.Appends db') (hc : db.challenges.Has c) : db'.challenges.Has c := by
  obtain ⟨rows, hrows⟩ := h
  rw [Table.Has, hrows, List.map_append]
  exact List.mem_append_left _ hc

theorem addNewChallenge_appends (o : CallOutcome) (c : InsertChallenge) (db : Database) :
    ∃ rows, (addNewChallenge o c db).2.challenges.rows = db.challenges.rows ++ rows ∧
      ∀ row ∈ rows, row.challenge = c.challenge := by
  by_cases ho : o = .executed
  · subst ho
    rcases addNewChallenge_rows c.challenge db c.poolId with ⟨-, hdb⟩ | ⟨-, row, hrow, hrows⟩
    · exact ⟨[], by rw [hdb, List.append_nil], by simp⟩
    · refine ⟨[row], hrows, fun row' hrow' => ?_⟩
      rw [List.mem_singleton.1 hrow', hrow]
  · refine ⟨[], ?_, by simp⟩
    cases o with
    | executed => exact absurd rfl ho
    | _ => exact (List.append_nil _).symm

theorem addNewChallenge_db (o : CallOutcome) (c : InsertChallenge) (db : Database) :
    (addNewChallenge o c db).2 = { db with challenges := (addNewChallenge o c db).2.challenges } := by
  cases o with
  | executed =>
    rcases hrow : db.challenges.insert? ⟨c, Int32.ofNat (db.challenges.rows.length + 1), none, none⟩ with _ | t <;>
      simp only [addNewChallenge, interact, hrow, Option.map_none, Option.map_some]
  | _ => rfl

theorem getChallenge_of_succeeds (h : EnsurePc.get.succeeds o (db.challenges.Has c) = true) :
    ∃ row, db.challenges.find? c = some row ∧ getChallengeByChallenge o c db = .ok row := by
  obtain ⟨ho, hhas⟩ : o = .executed ∧ db.challenges.Has c := by simpa [EnsurePc.succeeds] using h
  obtain ⟨row, hrow⟩ := Table.has_iff.1 hhas
  rw [ho]
  exact ⟨row, hrow, getChallengeByChallenge_some hrow⟩

theorem getChallenge_of_fails (h : EnsurePc.get.succeeds o (db.challenges.Has c) = false) :
    ∃ e, getChallengeByChallenge o c db = .error e := by
  rcases hget : getChallengeByChallenge o c db with e | row
  · exact ⟨e, rfl⟩
  · -- an executed query that finds a row has succeeded
    cases o with
    | executed =>
      have hhas : db.challenges.Has c := Table.has_iff.2 ⟨row, query_ok hget⟩
      simp [EnsurePc.succeeds, hhas] at h
    | _ => cases hget

theorem addNewChallenge_of_succeeds (poolId : RowId) (h : EnsurePc.add.succeeds o (db.challenges.Has c) = true) :
    ∃ db', addNewChallenge o ⟨poolId, c⟩ db = (.ok (), db') ∧ db'.challenges.Has c := by
  obtain ⟨ho, hhas⟩ : o = .executed ∧ ¬ db.challenges.Has c := by simpa [EnsurePc.succeeds] using h
  obtain ⟨db', row, hadd, hrow⟩ := addNewChallenge_none (Table.find?_eq_none.2 hhas) poolId
  rw [ho]
  exact ⟨db', hadd, Table.has_iff.2 ⟨row, hrow⟩⟩

theorem addNewChallenge_of_fails (poolId : RowId) (h : EnsurePc.add.succeeds o (db.challenges.Has c) = false) :
    ∃ e, addNewChallenge o ⟨poolId, c⟩ db = (.error e, db) := by
  cases o with
  | executed =>
    have hhas : db.challenges.Has c := by simpa [EnsurePc.succeeds] using h
    obtain ⟨row, hrow⟩ := Table.has_iff.1 hhas
    exact ⟨_, addNewChallenge_some hrow poolId⟩
  | _ => exact ⟨_, rfl⟩

/-- What follows from the operations of the loop. -/
theorem exec_addChallenge (poolId : RowId) (o : CallOutcome) (m : EpochMemory) (c : Challenge) :
    ((EpochOp.addChallenge c).exec poolId o m).1.db = (addNewChallenge o ⟨poolId, c⟩ m.db).2 ∧
      ((EpochOp.addChallenge c).exec poolId o m).2 =
        if EnsurePc.add.succeeds o (m.db.challenges.Has c) then [] else [.verifyChallenge c] := by
  by_cases hok : EnsurePc.add.succeeds o (m.db.challenges.Has c) = true
  · obtain ⟨db', hadd, -⟩ := addNewChallenge_of_succeeds poolId hok
    rw [if_pos hok]
    simp only [EpochOp.exec, hadd, and_self]
  · obtain ⟨e, hadd⟩ := addNewChallenge_of_fails poolId (Bool.eq_false_iff.2 hok)
    rw [if_neg hok]
    simp only [EpochOp.exec, hadd, and_self]

theorem exec_verifyChallenge (poolId : RowId) (o : CallOutcome) (m : EpochMemory) (c : Challenge) :
    ((EpochOp.verifyChallenge c).exec poolId o m).1.db = m.db ∧
      ((EpochOp.verifyChallenge c).exec poolId o m).2 =
        if EnsurePc.verify.succeeds o (m.db.challenges.Has c) then [] else [.addChallenge c] := by
  by_cases hok : EnsurePc.verify.succeeds o (m.db.challenges.Has c) = true
  · obtain ⟨row, -, hget⟩ := getChallenge_of_succeeds hok
    rw [if_pos hok]
    simp only [EpochOp.exec, hget, and_self]
  · obtain ⟨e, hget⟩ := getChallenge_of_fails (Bool.eq_false_iff.2 hok)
    rw [if_neg hok]
    simp only [EpochOp.exec, hget, and_self]

theorem EpochOp.exec_appends (poolId : RowId) (o : CallOutcome) (m : EpochMemory) (op : EpochOp) :
    m.db.Appends (op.exec poolId o m).1.db := by
  cases op with
  | addChallenge c =>
    rw [(exec_addChallenge poolId o m c).1]
    obtain ⟨rows, hrows, -⟩ := addNewChallenge_appends o ⟨poolId, c⟩ m.db
    exact ⟨rows, hrows⟩
  | verifyChallenge c =>
    rw [(exec_verifyChallenge poolId o m c).1]
    exact .refl m.db
  | _ => exact .refl m.db

theorem PayoutPc.step_appends {fmt : LogFormat} {cfg : Config} {r : Round} {db' : Database} {i : PayoutInput}
    {pc pc' : PayoutPc} {msgs : List MessageInternalMineSuccess} (h : pc.step fmt cfg r db i = some (db', pc', msgs)) :
    db.Appends db' := by
  unfold PayoutPc.step at h
  split at h
  · cases h
    exact .refl db
  · split at h <;> cases h <;> exact .refl db
  · next o full =>
    obtain ⟨rows, hrows, -⟩ := addNewChallenge_appends o ⟨cfg.poolId, r.challenge⟩ db
    split at h <;> next he => cases h; rw [he] at hrows; exact ⟨rows, hrows⟩
  · split at h <;> cases h <;> exact .refl db
  · split at h
    · next he =>
      cases h
      rcases updateRewards_ok he with ⟨-, rfl⟩ | ⟨-, hquery⟩
      · exact .refl _
      · rw [(updateRewardsQuery_spec hquery).2.2]
        exact .refl _
    · next he =>
      cases h
      rw [(updateRewards_error he).1]
      exact .refl db
  · cases h
    exact .refl db
  · cases h

end Calls

/-- No step of the mining tasks changes or deletes a row of `challenges`. -/
theorem Mining.Step.appends {su : MiningSetup} {s s' : Mining} {a : Mining.Action} (h : Mining.Step su s a s')
    (ha : ∀ db, a ≠ .database db) : s.mem.db.Appends s'.mem.db := by
  cases h with
  | main h =>
    rw [Mining.event_mem]
    generalize s.main = pc₀ at h
    cases h with
    | enterOp | discardOp => exact EpochOp.exec_appends ..
    | _ => exact .refl _
  | watcher _ h =>
    cases h with
    | op => exact EpochOp.exec_appends ..
    | _ => exact .refl _
  | handler _ h => cases h <;> exact .refl _
  | payout _ h => exact PayoutPc.step_appends h
  | database => exact absurd rfl (ha _)
  | _ => exact .refl _

namespace EnsureLoop

open Mining

variable {su : MiningSetup} {s s' : Mining} {a : Action} {l : EnsureLoop} {pc : EnsurePc}

/-! ### Steps of the loop -/

theorem At.unique {pc' : EnsurePc} (h : l.At s pc) (h' : l.At s pc') : pc = pc' := by
  cases l with
  | insertOrVerify t c rest =>
    cases pc <;> cases pc' <;> first | rfl | exact h.elim | exact h'.elim | cases h.symm.trans h'
  | getOrCreate k r full =>
    cases pc <;> cases pc' <;> first | rfl | cases h.symm.trans h'

theorem Past.not_running (h : l.Past s) : ¬ l.Running s := by
  rintro ⟨pc, hat⟩
  cases l with
  | insertOrVerify t c rest =>
    have hne : ∀ op : EpochOp, s.entering? t ≠ some (op :: rest) := by
      intro op he
      simpa using congrArg List.length (Option.some.inj (h.symm.trans he))
    cases pc with
    | get => exact hat
    | add | verify => exact hne _ hat
  | getOrCreate k r full =>
    obtain ⟨row, -, -, hpay⟩ := h
    cases pc <;> cases hpay.symm.trans hat

/-- Where a call leads: to the next one, or past the loop. -/
def LeadsTo (l : EnsureLoop) (s : Mining) : Option EnsurePc → Prop
  | some pc => l.At s pc
  | none => l.Past s

/-- A call of a watcher or of the main loop that leads to the other one unless it succeeds. -/
private theorem step_retry {t : EpochTask} {op op' : EpochOp} {rest : List EpochOp} {o : CallOutcome} {ok : Bool}
    (hent : s.entering? t = some (op :: rest))
    (hfollow : (op.exec su.config.poolId o s.mem).2 = if ok then [] else [op']) (h : step su s (t.call o) = some s') :
    s'.mem = (op.exec su.config.poolId o s.mem).1 ∧ s'.entering? t = some (if ok then rest else op' :: rest) := by
  obtain ⟨s₁, hs₁, hmem, hops⟩ := Mining.step_call su o hent
  cases hs₁.symm.trans h
  refine ⟨hmem, ?_⟩
  rw [hops, hfollow]
  cases ok <;> rfl

/-- A call of a payout task. -/
private theorem step_payout {k : ℕ} {r : Round} {o : CallOutcome} {pc₀ pc' : PayoutPc} {db : Database}
    (hpay : s.payouts[k]? = some (r, pc₀)) (hpc : pc₀.step su.fmt su.config r s.mem.db (.call o) = some (db, pc', []))
    (h : step su s (.payout k (.call o)) = some s') : s'.mem.db = db ∧ s'.payouts[k]? = some (r, pc') := by
  have hk : k < s.payouts.length := (List.getElem?_eq_some_iff.1 hpay).1
  cases step_sound h with
  | payout hpay' hstep =>
    cases hpay.symm.trans hpay'
    cases hpc.symm.trans hstep
    exact ⟨rfl, List.getElem?_set_self hk⟩

/-- What a call of a loop does. -/
theorem step_call {o : CallOutcome} (hat : l.At s pc) (h : step su s (l.call o) = some s') :
    s'.mem.db = (if pc = .add then (addNewChallenge o ⟨su.config.poolId, l.challenge⟩ s.mem.db).2 else s.mem.db) ∧
      l.LeadsTo s' (l.next (pc.succeeds o (s.mem.db.challenges.Has l.challenge)) pc) := by
  cases l with
  | insertOrVerify t c rest =>
    cases pc with
    | get => exact hat.elim
    | add =>
      obtain ⟨hdb, hfollow⟩ := exec_addChallenge su.config.poolId o s.mem c
      obtain ⟨hmem, hent⟩ := step_retry hat hfollow h
      refine ⟨by rw [hmem, hdb]; rfl, ?_⟩
      change (insertOrVerify t c rest).LeadsTo s' (next _ (EnsurePc.add.succeeds o (s.mem.db.challenges.Has c)) .add)
      cases hok : EnsurePc.add.succeeds o (s.mem.db.challenges.Has c) <;> rw [hok] at hent <;> exact hent
    | verify =>
      obtain ⟨hdb, hfollow⟩ := exec_verifyChallenge su.config.poolId o s.mem c
      obtain ⟨hmem, hent⟩ := step_retry hat hfollow h
      refine ⟨by rw [hmem, hdb]; rfl, ?_⟩
      change (insertOrVerify t c rest).LeadsTo s' (next _ (EnsurePc.verify.succeeds o (s.mem.db.challenges.Has c)) .verify)
      cases hok : EnsurePc.verify.succeeds o (s.mem.db.challenges.Has c) <;> rw [hok] at hent <;> exact hent
  | getOrCreate k r full =>
    change _ ∧ (getOrCreate k r full).LeadsTo s' (next _ (pc.succeeds o (s.mem.db.challenges.Has r.challenge)) pc)
    cases hok : pc.succeeds o (s.mem.db.challenges.Has r.challenge) with
    | false =>
      cases pc with
      | get | verify =>
        obtain ⟨e, hget⟩ := getChallenge_of_fails hok
        rw [if_neg (by simp)]
        exact step_payout hat (by simp only [payoutPc, PayoutPc.step, hget]) h
      | add =>
        obtain ⟨e, hadd⟩ := addNewChallenge_of_fails su.config.poolId hok
        rw [if_pos rfl, challenge, hadd]
        exact step_payout hat (by simp only [payoutPc, PayoutPc.step, hadd]) h
    | true =>
      cases pc with
      | get =>
        obtain ⟨row, hrow, hget⟩ := getChallenge_of_succeeds hok
        obtain ⟨hdb, hpay⟩ := step_payout hat (by simp only [payoutPc, PayoutPc.step, hget]; rfl) h
        obtain ⟨hmem, hc⟩ := Table.find?_eq_some.1 hrow
        exact ⟨hdb, row, hdb ▸ hmem, hc, hpay⟩
      | add =>
        obtain ⟨db', hadd, -⟩ := addNewChallenge_of_succeeds su.config.poolId hok
        rw [if_pos rfl, challenge, hadd]
        exact step_payout hat (by simp only [payoutPc, PayoutPc.step, hadd]) h
      | verify =>
        obtain ⟨row, -, hget⟩ := getChallenge_of_succeeds hok
        rw [if_neg (by simp)]
        exact step_payout hat (by simp only [payoutPc, PayoutPc.step, hget]) h

/-- A loop can always make its call. -/
theorem At.enabled (hat : l.At s pc) (o : CallOutcome) : (step su s (l.call o)).isSome := by
  cases l with
  | insertOrVerify t c rest =>
    have hcall : ∀ op : EpochOp, s.entering? t = some (op :: rest) → (step su s (t.call o)).isSome := by
      intro op hent
      obtain ⟨s', hs', -, -⟩ := Mining.step_call su o hent
      rw [hs']
      rfl
    cases pc with
    | get => exact hat.elim
    | add | verify => exact hcall _ hat
  | getOrCreate k r full =>
    show (s.stepPayout su k (.call o)).isSome
    have hpc : ∃ x, (payoutPc full pc).step su.fmt su.config r s.mem.db (.call o) = some x := by
      cases pc <;> simp only [payoutPc, PayoutPc.step] <;> split <;> exact ⟨_, rfl⟩
    obtain ⟨x, hx⟩ := hpc
    simp [stepPayout, show s.payouts[k]? = some (r, payoutPc full pc) from hat, hx]

/-! ### Steps of the others -/

/-- The main loop spawns and stops watchers, and moves none. -/
private theorem event_watchers (s : Mining) (m : EpochMemory) (ev : MainEvent) {k : ℕ} {w : Watcher}
    (hw : s.watchers[k]? = some w) : ∃ w', (s.event m ev).watchers[k]? = some w' ∧ w'.pc = w.pc := by
  have hk : k < s.watchers.length := (List.getElem?_eq_some_iff.1 hw).1
  cases ev with
  | watch w₀ => exact ⟨w, (List.getElem?_append_left hk).trans hw, rfl⟩
  | stop txId paid =>
    refine ⟨stopWatcher txId w, ?_, ?_⟩
    · show (s.watchers.map (stopWatcher txId))[k]? = _
      rw [List.getElem?_map, hw, Option.map_some]
    · unfold stopWatcher
      split <;> rfl
  | _ => exact ⟨w, hw, rfl⟩

private theorem event_payouts (s : Mining) (m : EpochMemory) (ev : MainEvent) {k : ℕ} {x : Round × PayoutPc}
    (hx : s.payouts[k]? = some x) : (s.event m ev).payouts[k]? = some x := by
  have hk : k < s.payouts.length := (List.getElem?_eq_some_iff.1 hx).1
  cases ev with
  | stop txId paid => exact (List.getElem?_append_left hk).trans hx
  | _ => exact hx

/-- A task with operations ahead keeps them while the others move. -/
theorem entering?_other {t : EpochTask} {op : EpochOp} {ops : List EpochOp} (hent : s.entering? t = some (op :: ops))
    (h : step su s a = some s') (ha : ∀ o, a ≠ t.call o) : s'.entering? t = some (op :: ops) := by
  cases t with
  | main =>
    have hmain := entering?_main hent
    cases step_sound h with
    | @main input m pc ev hstep =>
      -- the main loop itself can only make its call
      exfalso
      cases input with
      | op o => exact ha o rfl
      | _ => simp [step, stepMain, MainPc.step, hmain] at h
    | _ => exact hent
  | watcher k =>
    obtain ⟨w, hw, hpc⟩ := entering?_watcher hent
    have hresult : ∀ {s' : Mining} {w' : Watcher}, s'.watchers[k]? = some w' → w'.pc = w.pc →
        s'.entering? (.watcher k) = some (op :: ops) := by
      intro s' w' hw' hpc'
      simp only [entering?, hw', Option.bind_some, hpc', hpc, WatcherPc.entering?]
    cases step_sound h with
    | @main input m pc ev hstep =>
      obtain ⟨w', hw', hpc'⟩ := event_watchers { s with mem := m.mem, chain := m.chain, main := pc } s.mem ev hw
      exact hresult hw' hpc'
    | @watcher k' input w₁ m pc op' hw₁ hstep =>
      by_cases hk : k' = k
      · -- nor can the watcher
        exfalso
        subst hk
        cases input with
        | op o => exact ha o rfl
        | _ => simp [step, stepWatcher, hw, Watcher.step, hpc] at h
      · exact hresult ((List.getElem?_set_ne hk).trans hw) rfl
    | _ => exact hent

/-- A payout task that is to make a call stays there while the others move. -/
theorem payouts_other {k : ℕ} {r : Round} {full : UInt64} (hpay : s.payouts[k]? = some (r, payoutPc full pc))
    (h : step su s a = some s') (ha : ∀ o, a ≠ .payout k (.call o)) : s'.payouts[k]? = some (r, payoutPc full pc) := by
  cases step_sound h with
  | main hstep => exact event_payouts _ _ _ hpay
  | @payout k' input r' pc₀ pc' db msgs ht hstep =>
    by_cases hk : k' = k
    · exfalso
      subst hk
      cases hpay.symm.trans ht
      cases input with
      | call o => exact ha o rfl
      | _ => cases pc <;> cases hstep
    · exact (List.getElem?_set_ne hk).trans hpay
  | _ => exact hpay

theorem At.other (hat : l.At s pc) (h : step su s a = some s') (ha : ∀ o, a ≠ l.call o) : l.At s' pc := by
  cases l with
  | insertOrVerify t c rest =>
    cases pc with
    | get => exact hat.elim
    | add | verify => exact entering?_other hat h ha
  | getOrCreate k r full => exact payouts_other hat h ha

/-! ### The end of the loop -/

/-- A call after which the loop ends has found or added the row. -/
theorem has_of_past {o : CallOutcome} (hat : l.At s pc) (h : step su s (l.call o) = some s')
    (hnext : l.next (pc.succeeds o (s.mem.db.challenges.Has l.challenge)) pc = none) :
    s'.mem.db.challenges.Has l.challenge := by
  have hok : pc.succeeds o (s.mem.db.challenges.Has l.challenge) = true := by
    by_contra hfails
    rw [Bool.eq_false_iff.2 hfails] at hnext
    cases pc <;> cases hnext
  rw [(step_call hat h).1]
  cases pc with
  | add =>
    obtain ⟨db', hadd, hhas⟩ := addNewChallenge_of_succeeds su.config.poolId hok
    rw [if_pos rfl, hadd]
    exact hhas
  | get | verify =>
    rw [if_neg (by simp)]
    simpa [EnsurePc.succeeds] using (Bool.and_eq_true_iff.1 hok).2

theorem call_ne_database (l : EnsureLoop) (o : CallOutcome) (db : Database) : l.call o ≠ .database db := by
  cases l with
  | insertOrVerify t c rest => cases t <;> exact nofun
  | getOrCreate k r full => exact nofun

/-- A loop whose insertion is executed has its row. -/
theorem has_of_add (hat : l.At s .add) (h : step su s (l.call .executed) = some s') :
    s'.mem.db.challenges.Has l.challenge := by
  rw [(step_call hat h).1, if_pos rfl]
  by_cases hfound : s.mem.db.challenges.Has l.challenge
  · obtain ⟨rows, hrows, -⟩ := addNewChallenge_appends .executed ⟨su.config.poolId, l.challenge⟩ s.mem.db
    exact Database.Appends.has ⟨rows, hrows⟩ hfound
  · have hok : EnsurePc.add.succeeds .executed (s.mem.db.challenges.Has l.challenge) = true := by
      simp [EnsurePc.succeeds, hfound]
    obtain ⟨db', hadd, hhas⟩ := addNewChallenge_of_succeeds su.config.poolId hok
    rw [hadd]
    exact hhas

/-- The rank of a loop that is about to make a call. -/
def rankAt (l : EnsureLoop) (s : Mining) (pc : EnsurePc) : ℕ := pc.rank (s.mem.db.challenges.Has l.challenge)

/-- An executed call lowers the rank, unless it ends the loop. -/
theorem rankAt_lt {pc' : EnsurePc} (hat : l.At s pc) (h : step su s (l.call .executed) = some s') (hat' : l.At s' pc') :
    l.rankAt s' pc' < l.rankAt s pc := by
  unfold rankAt
  obtain ⟨hdb, hleads⟩ := step_call hat h
  have hgo : l.next (pc.succeeds .executed (s.mem.db.challenges.Has l.challenge)) pc = some pc' := by
    rcases hnext : l.next (pc.succeeds .executed (s.mem.db.challenges.Has l.challenge)) pc with _ | pc''
    · rw [hnext] at hleads
      exact absurd ⟨pc', hat'⟩ (Past.not_running hleads)
    · rw [hnext] at hleads
      rw [At.unique hleads hat']
  have hback : l.back = some pc' → pc' = .get := by
    cases l with
    | insertOrVerify t c rest => exact nofun
    | getOrCreate k r full => exact fun h => (Option.some.inj h).symm
  by_cases hfound : s.mem.db.challenges.Has l.challenge
  · have hkeeps : s'.mem.db.challenges.Has l.challenge :=
      ((step_sound h).appends (l.call_ne_database .executed)).has hfound
    rw [decide_eq_true hfound] at hgo ⊢
    rw [decide_eq_true hkeeps]
    cases pc with
    | get => cases hgo
    | add =>
      cases hgo
      decide
    | verify =>
      rw [hback hgo]
      decide
  · rw [decide_eq_false hfound] at hgo ⊢
    cases pc with
    | get | verify =>
      cases hgo
      exact Nat.lt_succ_self 3
    | add =>
      rw [hback hgo, decide_eq_true (has_of_add hat h)]
      decide

end EnsureLoop

/-- The server running on and on, while no other task deletes a row of `challenges`. -/
structure EndlessMining (su : MiningSetup) (s : ℕ → Mining) (a : ℕ → Mining.Action) : Prop where
  moves : ∀ n, Mining.step su (s n) (a n) = some (s (n + 1))
  keeps : ∀ n db, a n = .database db → ∀ c, (s n).mem.db.challenges.Has c → db.challenges.Has c

/-- From the `n`-th step on the loop gets its turns as long as it runs, and finitely many of its calls fail. -/
structure EnsureLoop.Served (l : EnsureLoop) (s : ℕ → Mining) (a : ℕ → Mining.Action) (n : ℕ) : Prop where
  turns : (∀ k ≥ n, l.Running (s k)) → ∀ m ≥ n, ∃ k ≥ m, ∃ o, a k = l.call o
  executed : ∃ N, ∀ k ≥ N, ∀ o, a k = l.call o → o = .executed

section Endless

variable {su : MiningSetup} {s : ℕ → Mining} {a : ℕ → Mining.Action} {l : EnsureLoop} {n : ℕ}

theorem EndlessMining.has (h : EndlessMining su s a) {c : Challenge} (k : ℕ) (hc : (s k).mem.db.challenges.Has c) :
    (s (k + 1)).mem.db.challenges.Has c := by
  by_cases hother : ∃ db, a k = .database db
  · obtain ⟨db, hdb⟩ := hother
    have hmove := h.moves k
    rw [hdb] at hmove
    rw [← Option.some.inj hmove]
    exact h.keeps k db hdb c hc
  · exact ((Mining.step_sound (h.moves k)).appends fun db hdb => hother ⟨db, hdb⟩).has hc

/-- No loop runs for ever: the calls of the others do not raise its rank, and from some step on its own lower it. -/
theorem EndlessMining.ends (h : EndlessMining su s a) (hserved : l.Served s a n) : ¬ ∀ k ≥ n, l.Running (s k) := by
  intro hruns
  obtain ⟨N, hexecuted⟩ := hserved.executed
  have : Nonempty EnsurePc := ⟨.add⟩
  have hpcs := hruns
  choose! pc hpc using hpcs
  obtain ⟨k, hk, hend⟩ := ends_of_turns (fun k => l.rankAt (s k) (pc k)) hserved.turns fun _ => by
    refine ⟨N, fun k hk hN => ?_⟩
    have hat := hpc k hk
    have hat' := hpc (k + 1) (Nat.le_succ_of_le hk)
    have hfall : (∃ o, a k = l.call o) → l.rankAt (s (k + 1)) (pc (k + 1)) < l.rankAt (s k) (pc k) := by
      rintro ⟨o, ho⟩
      have hmove := h.moves k
      rw [ho, hexecuted k hN o ho] at hmove
      exact EnsureLoop.rankAt_lt hat hmove hat'
    refine ⟨?_, hfall⟩
    by_cases hcall : ∃ o, a k = l.call o
    · exact Nat.le_of_lt (hfall hcall)
    · have hstay : pc (k + 1) = pc k := hat'.unique (hat.other (h.moves k) fun o ho => hcall ⟨o, ho⟩)
      rw [hstay]
      refine EnsurePc.rank_le (fun hfound => ?_) (pc k)
      exact decide_eq_true (h.has k (of_decide_eq_true hfound))
  exact hend (hruns k hk)

/-- A loop that has ended did so with a call of its own. -/
theorem EndlessMining.past (h : EndlessMining su s a) {m : ℕ} (hrun : l.Running (s m)) (hend : ¬ l.Running (s (m + 1))) :
    l.Past (s (m + 1)) ∧ (s (m + 1)).mem.db.challenges.Has l.challenge := by
  obtain ⟨pc, hat⟩ := hrun
  have hmove := h.moves m
  obtain ⟨o, ho⟩ : ∃ o, a m = l.call o := by
    by_contra hother
    exact hend ⟨pc, hat.other hmove fun o ho => hother ⟨o, ho⟩⟩
  rw [ho] at hmove
  obtain ⟨-, hleads⟩ := EnsureLoop.step_call hat hmove
  rcases hnext : l.next (pc.succeeds o ((s m).mem.db.challenges.Has l.challenge)) pc with _ | pc'
  · rw [hnext] at hleads
    exact ⟨hleads, EnsureLoop.has_of_past hat hmove hnext⟩
  · rw [hnext] at hleads
    exact absurd ⟨pc', hleads⟩ hend

/-- A loop that has ended goes on with the only row that has its challenge. -/
theorem EnsureLoop.Past.returns {s : Mining} (h : l.Past s) (hhas : s.mem.db.challenges.Has l.challenge) :
    ∃ row, s.mem.db.challenges.rows.filter (fun row => row.challenge = l.challenge) = [row] ∧ l.Returns s row.id := by
  cases l with
  | insertOrVerify t c rest =>
    obtain ⟨row, hrow⟩ := Table.has_iff.1 hhas
    exact ⟨row, Table.filter_of_find? hrow, h⟩
  | getOrCreate k r full =>
    obtain ⟨row, hmem, hc, hpay⟩ := h
    exact ⟨row, Table.filter_of_find? (Table.find?_eq_some.2 ⟨hmem, hc⟩), hpay⟩

/-- A call of a loop changes nothing but the challenges, where it adds at most rows for its own. -/
theorem EnsureLoop.At.changes {s s' : Mining} {pc : EnsurePc} {o : CallOutcome} (hat : l.At s pc)
    (h : Mining.step su s (l.call o) = some s') :
    ∃ rows, s'.mem.db = { s.mem.db with challenges := s'.mem.db.challenges } ∧
      s'.mem.db.challenges.rows = s.mem.db.challenges.rows ++ rows ∧ ∀ row ∈ rows, row.challenge = l.challenge := by
  rw [(step_call hat h).1]
  by_cases hadd : pc = .add
  · rw [if_pos hadd]
    obtain ⟨rows, hrows, hnew⟩ := addNewChallenge_appends o ⟨su.config.poolId, l.challenge⟩ s.mem.db
    exact ⟨rows, addNewChallenge_db .., hrows, hnew⟩
  · rw [if_neg hadd]
    exact ⟨[], rfl, (List.append_nil _).symm, by simp⟩

end Endless

/-- Every loop that makes sure of a challenge ends, whatever the other tasks do in between, if they delete no row of
`challenges`, the loop gets its turns and finitely many of its calls fail.  Then its challenge has exactly one row, whose
id a payout task goes on with.  The loop adds at most rows for its challenge, and no row is changed or deleted by it or
by another mining task. -/
theorem challenge_ensured (su : MiningSetup) {s : ℕ → Mining} {a : ℕ → Mining.Action} (h : EndlessMining su s a)
    (l : EnsureLoop) {n : ℕ} (hl : l.Running (s n)) (hserved : l.Served s a n) :
    ∃ m ≥ n, (∀ k, n ≤ k → k ≤ m → l.Running (s k) ∧ ∀ o, (Mining.step su (s k) (l.call o)).isSome) ∧
      (∃ row, (s (m + 1)).mem.db.challenges.rows.filter (fun row => row.challenge = l.challenge) = [row] ∧
        l.Returns (s (m + 1)) row.id) ∧
      (∀ k, n ≤ k → k ≤ m → ∀ o, a k = l.call o →
        ∃ rows, (s (k + 1)).mem.db = { (s k).mem.db with challenges := (s (k + 1)).mem.db.challenges } ∧
          (s (k + 1)).mem.db.challenges.rows = (s k).mem.db.challenges.rows ++ rows ∧
          ∀ row ∈ rows, row.challenge = l.challenge) ∧
      ∀ k, (∀ db, a k ≠ .database db) → (s k).mem.db.Appends (s (k + 1)).mem.db := by
  classical
  have hends : ∃ k ≥ n, ¬ l.Running (s k) := by
    simpa using h.ends hserved
  -- the first step at which it is not in the loop any more
  obtain ⟨hfirst, hnot⟩ := Nat.find_spec hends
  have hbefore : ∀ k, n ≤ k → k < Nat.find hends → l.Running (s k) := by
    intro k hk hlt
    by_contra hrun
    exact Nat.find_min hends hlt ⟨hk, hrun⟩
  obtain ⟨m, hm⟩ : ∃ m, Nat.find hends = m + 1 := by
    refine Nat.exists_eq_succ_of_ne_zero fun h0 => hnot ?_
    rw [h0] at hfirst ⊢
    rw [Nat.le_zero.1 hfirst] at hl
    exact hl
  rw [hm] at hfirst hnot hbefore
  have hn : n ≤ m := by
    by_contra hlt
    have he : n = m + 1 := by omega
    rw [he] at hl
    exact hnot hl
  have hruns : ∀ k, n ≤ k → k ≤ m → l.Running (s k) := fun k hk hkm => hbefore k hk (Nat.lt_succ_of_le hkm)
  obtain ⟨hpast, hhas⟩ := h.past (hruns m hn le_rfl) hnot
  refine ⟨m, hn, fun k hk hkm => ⟨hruns k hk hkm, fun o => ?_⟩, hpast.returns hhas, fun k hk hkm o ho => ?_,
    fun k ha => (Mining.step_sound (h.moves k)).appends ha⟩
  · obtain ⟨pc, hat⟩ := hruns k hk hkm
    exact hat.enabled o
  · obtain ⟨pc, hat⟩ := hruns k hk hkm
    exact hat.changes (ho ▸ h.moves k)

/-- A payout task finds its challenge without a row, another task inserts it, the insertion of the payout task fails, and
it finds the row; after that, only time goes by. -/
def exampleEnsure : ℕ → Mining.Action
  | 1 => .database (addNewChallenge .executed ⟨1, filled 0⟩ (Database.single (filled 7) 0)).2
  | 0 | 2 | 3 | 4 => .payout 0 (.call .executed)
  | _ => .tick

def exampleEnsuring : ℕ → Mining
  | 0 => { Mining.exampleStart with payouts := [(exampleRound, .getChallenge 1000)] }
  | n + 1 => (Mining.step exampleMiningSetup (exampleEnsuring n) (exampleEnsure n)).getD (exampleEnsuring n)

theorem exampleEnsuring_moves (n : ℕ) :
    Mining.step exampleMiningSetup (exampleEnsuring n) (exampleEnsure n) = some (exampleEnsuring (n + 1)) := by
  have hmoves : (Mining.step exampleMiningSetup (exampleEnsuring n) (exampleEnsure n)).isSome := by
    match n with
    | 0 | 1 | 2 | 3 | 4 => decide +kernel
    | n + 5 => rfl
  obtain ⟨s', hs'⟩ := Option.isSome_iff_exists.1 hmoves
  rw [exampleEnsuring, hs', Option.getD_some]

theorem challenge_ensured_example :
    ∃ m row, (exampleEnsuring (m + 1)).mem.db.challenges.rows.filter (fun row => row.challenge = filled 0) = [row] ∧
      (exampleEnsuring (m + 1)).payouts[0]? = some (exampleRound, .updateRewards 1000 row.id) := by
  set l : EnsureLoop := .getOrCreate 0 exampleRound 1000 with hl
  have hendless : EndlessMining exampleMiningSetup exampleEnsuring exampleEnsure := by
    refine ⟨exampleEnsuring_moves, fun n db ha c hc => ?_⟩
    match n with
    | 1 =>
      cases ha
      obtain ⟨rows, hrows, -⟩ := addNewChallenge_appends .executed ⟨1, filled 0⟩ (Database.single (filled 7) 0)
      exact Database.Appends.has ⟨rows, hrows⟩ hc
    | 0 | 2 | 3 | 4 | n + 5 => cases ha
  have hserved : l.Served exampleEnsuring exampleEnsure 0 := by
    refine ⟨fun hruns => ?_, 0, fun k _ o ho => ?_⟩
    · -- the loop has ended after its fourth call
      obtain ⟨pc, hat⟩ := hruns 5 (Nat.zero_le 5)
      have hpay : (exampleEnsuring 5).payouts.map Prod.snd = [.updateRewards 1000 1] := by decide +kernel
      have hpc : ((exampleEnsuring 5).payouts.map Prod.snd)[0]? = some (EnsureLoop.payoutPc 1000 pc) := by
        rw [List.getElem?_map, show (exampleEnsuring 5).payouts[0]? = some (exampleRound, _) from hat]
        rfl
      rw [hpay] at hpc
      cases pc <;> cases hpc
    · match k with
      | 0 | 2 | 3 | 4 => cases ho; rfl
      | 1 | n + 5 => cases ho
  have hrunning : l.Running (exampleEnsuring 0) := ⟨.get, rfl⟩
  obtain ⟨m, -, -, ⟨row, hrow, hpay⟩, -⟩ := challenge_ensured exampleMiningSetup hendless l hrunning hserved
  exact ⟨m, row, hrow, hpay⟩

end BitzPool
