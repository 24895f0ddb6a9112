import BitzPool.MiningSteps

/-!
# Rounds and their transactions

The main loop gives a transaction up when its sends failed, or when no final status came in time, although it may be
finalised all the same.  As long as no transaction that was given up is finalised, a transaction that is finalised
without error is the one the main loop works on until its payout task is spawned; so a round whose attempts all failed
has none (`Tracked.current`).
-/

namespace BitzPool

namespace MainPc

/-- The round that the main loop tries to get mined, or has failed with. -/
def trying? : MainPc → Option MainRound
  | .attempt r _ | .staleProof r _ | .blockhash r _ _ | .simulate r _ _ _ | .send r _ _ _ _ | .poll r _ _ _
  | .stop r _ _ _ _ | .discard r _ => some r
  | .top | .cutoff _ | .solution _ | .close _ | .snapshot _ | .readProof _ | .getProof _ _ | .compareEpoch _ _
  | .enter _ => none

/-- The transaction that has not been sent yet, with its round. -/
def built? : MainPc → Option (MainRound × MineTx)
  | .simulate r _ _ tx => some (r, tx)
  | _ => none

/-- The transaction the main loop may still see finalised without error, with its round. -/
def work? : MainPc → Option (MainRound × MineTx)
  | .send r _ _ tx _ | .poll r _ _ tx | .stop r _ _ tx true => some (r, tx)
  | _ => none

def tx? (pc : MainPc) : Option MineTx := pc.work?.map Prod.snd

/-- The transaction that was seen finalised without error, with its round. -/
def seen? : MainPc → Option (MainRound × MineTx)
  | .stop r _ _ tx true => some (r, tx)
  | _ => none

/-- The transaction that the main loop gives up with a step. -/
def givesUp : MainInput → MainPc → Option MineTx
  | .send false, .send _ _ _ tx attempts => if maxSendAttempts ≤ attempts + 1 then some tx else none
  | .expire, .poll _ _ _ tx => some tx
  | _, _ => none

variable {pc : MainPc} {r : MainRound}

theorem trying?_of_work? {x : MainRound × MineTx} (h : pc.work? = some x) : pc.trying? = some x.1 := by
  unfold work? at h
  split at h <;> cases h <;> rfl

theorem trying?_of_built? {x : MainRound × MineTx} (h : pc.built? = some x) : pc.trying? = some x.1 := by
  unfold built? at h
  split at h <;> cases h
  rfl

theorem work?_of_seen? {x : MainRound × MineTx} (h : pc.seen? = some x) : pc.work? = some x := by
  unfold seen? at h
  split at h <;> cases h
  rfl

theorem round?_of_trying? (h : pc.trying? = some r) : pc.round? = some r := by
  cases pc <;> first | exact h | cases h

theorem tx?_of_trying? (h : pc.trying? = none) : pc.tx? = none := by
  rw [tx?, Option.map_eq_none_iff, Option.eq_none_iff_forall_ne_some]
  intro x hx
  rw [trying?_of_work? hx] at h
  cases h

theorem trying?_of_preparing? (h : pc.preparing? = some r) : pc.trying? = some r := by
  cases pc <;> first | exact h | cases h

theorem tx?_of_preparing? (h : pc.preparing? = some r) : pc.tx? = none := by
  cases pc <;> first | rfl | cases h

theorem trying?_of_waiting (h : pc.waiting = true) : pc.trying? = none := by
  cases pc <;> first | rfl | cases h

theorem trying?_of_mined? (h : pc.mined? = some r) : pc.trying? = none := by
  cases pc <;> first | rfl | cases h

end MainPc

/-- The snapshots after a step of the main loop. -/
def MainEvent.rounds (rounds : List (Challenge × Submissions)) : MainEvent → List (Challenge × Submissions)
  | .snapshot r => rounds ++ [(r.old.challenge, r.submissions)]
  | _ => rounds

theorem MainEvent.rounds_getElem? {rounds : List (Challenge × Submissions)} {i : ℕ} {x : Challenge × Submissions}
    (ev : MainEvent) (h : rounds[i]? = some x) : (ev.rounds rounds)[i]? = some x := by
  cases ev with
  | snapshot r =>
    show (rounds ++ _)[i]? = some x
    rw [List.getElem?_append_left (List.getElem?_eq_some_iff.1 h).1, h]
  | _ => exact h

/-- The invariant of the main loop with its rounds and transactions. -/
structure Tracked (rounds : List (Challenge × Submissions)) (chain : MineChain) (pc : MainPc) : Prop where
  round : ∀ {r}, pc.round? = some r → rounds[r.index]? = some (r.old.challenge, r.submissions)
  built : ∀ {x}, pc.built? = some x →
    x.2.round = x.1.index ∧ x.2.id < chain.nextTx ∧ ∀ t ∈ chain.sent, t.id ≠ x.2.id
  work : ∀ {x}, pc.work? = some x → x.2.round = x.1.index ∧ x.2.id < chain.nextTx
  sentLt : ∀ {t}, t ∈ chain.sent → t.id < chain.nextTx ∧ t.round < rounds.length
  seen : ∀ {x}, pc.seen? = some x → ⟨x.2, true⟩ ∈ chain.landed
  current : ∀ {r l}, pc.trying? = some r → l ∈ chain.landed → l.ok = true → l.tx.round = r.index →
    pc.tx? = some l.tx

namespace Tracked

variable {rounds : List (Challenge × Submissions)} {chain : MineChain} {pc pc' : MainPc}

/-- The main loop leaves its round. -/
private theorem leave (hs : Tracked rounds chain pc) (hround : ∀ r, pc'.round? = some r → pc.round? = some r)
    (htrying : pc'.trying? = none) : Tracked rounds chain pc' where
  round h := hs.round (hround _ h)
  built h := by rw [MainPc.trying?_of_built? h] at htrying; cases htrying
  work h := by rw [MainPc.trying?_of_work? h] at htrying; cases htrying
  sentLt := hs.sentLt
  seen h := by rw [MainPc.trying?_of_work? (MainPc.work?_of_seen? h)] at htrying; cases htrying
  current h := by rw [htrying] at h; cases h

/-- The main loop goes on with its round, without a transaction: what it worked on was not finalised. -/
private theorem goOn (hs : Tracked rounds chain pc) {r : MainRound} (hr : pc.trying? = some r)
    (hr' : pc'.trying? = some r) (hbuilt : pc'.built? = none) (hwork : pc'.work? = none)
    (hnot : ∀ {tx}, pc.tx? = some tx → ⟨tx, true⟩ ∉ chain.landed) : Tracked rounds chain pc' where
  round {r'} h := by
    rw [MainPc.round?_of_trying? hr'] at h
    cases h
    exact hs.round (MainPc.round?_of_trying? hr)
  built h := by rw [hbuilt] at h; cases h
  work h := by rw [hwork] at h; cases h
  sentLt := hs.sentLt
  seen h := by rw [MainPc.work?_of_seen? h] at hwork; cases hwork
  current {r' l} h hl hok he := by
    rw [hr'] at h
    cases h
    obtain ⟨tx, ok⟩ := l
    cases hok
    exact absurd hl (hnot (hs.current hr hl rfl he))

/-- The main loop goes on with its transaction. -/
private theorem keep (hs : Tracked rounds chain pc) {x : MainRound × MineTx} (hx : pc.work? = some x)
    (hx' : pc'.work? = some x) (hbuilt : pc'.built? = none) (hseen : pc'.seen? = none ∨ ⟨x.2, true⟩ ∈ chain.landed) :
    Tracked rounds chain pc' where
  round {r'} h := by
    rw [MainPc.round?_of_trying? (MainPc.trying?_of_work? hx')] at h
    cases h
    exact hs.round (MainPc.round?_of_trying? (MainPc.trying?_of_work? hx))
  built h := by rw [hbuilt] at h; cases h
  work h := by
    rw [hx'] at h
    cases h
    exact hs.work hx
  sentLt := hs.sentLt
  seen {x'} h := by
    rcases hseen with hno | hl
    · rw [hno] at h
      cases h
    · rw [MainPc.work?_of_seen? h] at hx'
      cases hx'
      exact hl
  current {r' l} h hl hok he := by
    rw [MainPc.trying?_of_work? hx'] at h
    cases h
    have := hs.current (MainPc.trying?_of_work? hx) hl hok he
    rw [MainPc.tx?, hx] at this
    rw [MainPc.tx?, hx', this]

private theorem send (hs : Tracked rounds chain pc) {x : MainRound × MineTx} (hx : pc.work? = some x)
    (hbuilt : pc.built? = none) : Tracked rounds (chain.send x.2) pc where
  round := hs.round
  built h := by rw [hbuilt] at h; cases h
  work := hs.work
  sentLt h := by
    rcases List.mem_cons.1 h with rfl | h
    · obtain ⟨h1, h2⟩ := hs.work hx
      have h3 := hs.round (MainPc.round?_of_trying? (MainPc.trying?_of_work? hx))
      exact ⟨h2, h1 ▸ (List.getElem?_eq_some_iff.1 h3).1⟩
    · exact hs.sentLt h
  seen := hs.seen
  current := hs.current

private theorem build {r : MainRound} {best : Solution} {i : ℕ}
    (hs : Tracked rounds chain (.blockhash r best i)) :
    Tracked rounds chain.build (.simulate r best i ⟨chain.nextTx, r.index⟩) where
  round h := hs.round h
  built h := by
    cases h
    exact ⟨rfl, Nat.lt_succ_self _, fun t ht => (hs.sentLt ht).1.ne⟩
  work h := by cases h
  sentLt h := ⟨Nat.lt_succ_of_lt (hs.sentLt h).1, (hs.sentLt h).2⟩
  seen h := by cases h
  current h hl hok he := by
    cases h
    cases hs.current rfl hl hok he

private theorem valid {r : MainRound} {best : Solution} {i n : ℕ} {tx : MineTx}
    (hs : Tracked rounds chain (.simulate r best i tx)) : Tracked rounds chain (.send r best i tx n) where
  round h := hs.round h
  built h := by cases h
  work h := by
    cases h
    exact ⟨(hs.built rfl).1, (hs.built rfl).2.1⟩
  sentLt := hs.sentLt
  seen h := by cases h
  current h hl hok he := by
    cases h
    cases hs.current rfl hl hok he

private theorem snapshot (hs : Tracked rounds chain pc) {r : MainRound} (hr : r.index = rounds.length) :
    Tracked (rounds ++ [(r.old.challenge, r.submissions)]) chain (.attempt r 0) where
  round h := by
    cases h
    rw [hr, List.getElem?_concat_length]
  built h := by cases h
  work h := by cases h
  sentLt h := by
    have := hs.sentLt h
    rw [List.length_append, List.length_singleton]
    omega
  seen h := by cases h
  current {r' l} h hl _ he := by
    -- the round is new, no transaction belongs to it
    cases h
    have := (hs.sentLt (chain.landedSent l hl)).2
    omega

theorem main {dx : Drillx} {cfg : RowId} {m m' : MainMemory} {i : MainInput} {ev : MainEvent}
    (hs : Tracked rounds m.chain pc) (h : MainStep dx cfg rounds.length m i pc m' pc' ev)
    (hguard : ∀ tx ∈ pc.givesUp i, ⟨tx, true⟩ ∉ m.chain.landed) : Tracked (ev.rounds rounds) m'.chain pc' := by
  have hround : ∀ r, pc'.round? = some r → pc.round? = some r ∨ ev = .snapshot r := fun r hr => h.round? hr
  cases h with
  | wait _ hw =>
    exact hs.leave (fun r hr => (hround r hr).resolve_right (by rintro ⟨⟩)) (MainPc.trying?_of_waiting hw)
  | check _ hm =>
    exact hs.leave (fun r hr => (hround r hr).resolve_right (by rintro ⟨⟩)) (MainPc.trying?_of_mined? hm)
  | snapshot hr => exact hs.snapshot (by rw [hr])
  | prepare hp hp' =>
    refine hs.goOn (MainPc.trying?_of_preparing? hp) (MainPc.trying?_of_preparing? hp') ?_ ?_ fun h => ?_
    · cases pc' <;> first | rfl | cases hp'
    · cases pc' <;> first | rfl | cases hp'
    · rw [MainPc.tx?_of_preparing? hp] at h
      cases h
  | exhausted | stale | invalid | discardOp => exact hs.goOn rfl rfl rfl rfl fun h => by cases h
  | failed => exact hs.goOn rfl rfl rfl rfl fun h => by cases h
  | build => exact hs.build
  | valid => exact hs.valid
  | sent | resend => exact (hs.send rfl rfl).keep rfl rfl rfl (Or.inl rfl)
  | abandon hmax =>
    refine (hs.send rfl rfl).goOn rfl rfl rfl rfl fun h => ?_
    cases h
    exact hguard _ (by simp [MainPc.givesUp, hmax])
  | pending => exact hs
  | @finalized r best i tx ok hl =>
    cases ok with
    | true => exact hs.keep rfl rfl rfl (Or.inr hl)
    | false =>
      refine hs.goOn rfl rfl rfl rfl fun h hl' => ?_
      cases h
      exact Broadcast.Chain.not_landed_of_failed hl hl'
  | expire =>
    refine hs.goOn rfl rfl rfl rfl fun h => ?_
    cases h
    exact hguard _ rfl
  | _ => exact hs.leave (fun r hr => (hround r hr).resolve_right (by rintro ⟨⟩)) rfl

theorem land (hs : Tracked rounds chain pc) {tx : MineTx} {ok : Bool} {chain' : MineChain}
    (h : chain.land? tx ok = some chain') (hcur : ok = true → pc.tx? = some tx) : Tracked rounds chain' pc := by
  obtain ⟨-, -, hnext, hsent, hlanded⟩ := Broadcast.Chain.land?_eq_some h
  refine ⟨hs.round, fun hb => ?_, fun hw => ?_, fun ht => ?_, fun hseen => ?_, fun hr hl hok he => ?_⟩
  · rw [hnext, hsent]
    exact hs.built hb
  · rw [hnext]
    exact hs.work hw
  · rw [hnext]
    exact hs.sentLt (hsent ▸ ht)
  · rw [hlanded]
    exact List.mem_cons_of_mem _ (hs.seen hseen)
  · rw [hlanded] at hl
    rcases List.mem_cons.1 hl with rfl | hl
    · exact hcur hok
    · exact hs.current hr hl hok he

end Tracked

/-! ### What becomes of a transaction -/

section

variable {dx : Drillx} {cfg : RowId} {rounds : ℕ} {m m' : MainMemory} {i : MainInput} {pc pc' : MainPc} {ev : MainEvent}

theorem MainStep.landed (h : MainStep dx cfg rounds m i pc m' pc' ev) : m'.chain.landed = m.chain.landed := by
  cases h <;> rfl

/-- The main loop spawns no payout task, or that of the transaction it has seen finalised. -/
theorem MainStep.spawn_cases (h : MainStep dx cfg rounds m i pc m' pc' ev) :
    (∀ id r, ev ≠ .stop id (some r)) ∨
      ∃ r best k tx, pc = .stop r best k tx true ∧ pc' = .readProof r ∧ m' = m ∧
        ev = .stop tx.id (some (r.payout dx best tx)) := by
  cases h with
  | success => exact Or.inr ⟨_, _, _, _, rfl, rfl, rfl, rfl⟩
  | _ => exact Or.inl (by rintro id r ⟨⟩)

/-- The current transaction was current before, or it was built before. -/
theorem MainStep.tx?_cases (h : MainStep dx cfg rounds m i pc m' pc' ev) {tx : MineTx} (htx : pc'.tx? = some tx) :
    pc.tx? = some tx ∨ ∃ r, pc.built? = some (r, tx) := by
  cases h with
  | wait _ hw => rw [MainPc.tx?_of_trying? (MainPc.trying?_of_waiting hw)] at htx; cases htx
  | check _ hm => rw [MainPc.tx?_of_trying? (MainPc.trying?_of_mined? hm)] at htx; cases htx
  | prepare _ hp => rw [MainPc.tx?_of_preparing? hp] at htx; cases htx
  | valid => cases htx; exact Or.inr ⟨_, rfl⟩
  | sent | resend | pending => exact Or.inl htx
  | @finalized r best k tx' ok _ =>
    cases ok with
    | true => exact Or.inl htx
    | false => cases htx
  | _ => cases htx

end

/-- The current transaction, once finalised without error, stays current until its payout task is spawned. -/
theorem Tracked.current_or_spawned {dx : Drillx} {cfg : RowId} {rounds : List (Challenge × Submissions)}
    {m m' : MainMemory} {i : MainInput} {pc pc' : MainPc} {ev : MainEvent} (hs : Tracked rounds m.chain pc)
    (h : MainStep dx cfg rounds.length m i pc m' pc' ev) (hguard : ∀ tx ∈ pc.givesUp i, ⟨tx, true⟩ ∉ m.chain.landed)
    {tx : MineTx} (htx : pc.tx? = some tx) (hl : ⟨tx, true⟩ ∈ m.chain.landed) :
    pc'.tx? = some tx ∨ ∃ r best, ev = .stop tx.id (some (MainRound.payout dx r best tx)) := by
  cases h with
  | wait hw _ => rw [MainPc.tx?_of_trying? (MainPc.trying?_of_waiting hw)] at htx; cases htx
  | check hm _ => rw [MainPc.tx?_of_trying? (MainPc.trying?_of_mined? hm)] at htx; cases htx
  | prepare hp _ => rw [MainPc.tx?_of_preparing? hp] at htx; cases htx
  | sent | resend | pending => exact Or.inl htx
  | abandon hmax =>
    cases htx
    exact absurd hl (hguard _ (by simp [MainPc.givesUp, hmax]))
  | expire =>
    cases htx
    exact absurd hl (hguard _ rfl)
  | @finalized r best k tx' ok hl' =>
    cases htx
    cases ok with
    | true => exact Or.inl rfl
    | false => exact (Broadcast.Chain.not_landed_of_failed hl' hl).elim
  | success => cases htx; exact Or.inr ⟨_, _, rfl⟩
  | _ => cases htx

end BitzPool
