import BitzPool.Attribution
import BitzPool.Billing
import BitzPool.Server

/-!
# Everyone who works is signed up

A connection is of a miner with a row in `miners`, since its request looked the miner up; handlers take the miner of a
solution from a connection, entries from a handler, and snapshots are of entries.  Rows are never deleted and a miner
always has a balance, so whoever is in a snapshot has one (`Enrolled`): a payout addresses a row for every entry.
-/

namespace BitzPool

open Transition Update Keyed Database

/-! ### The miners of requests -/

/-- The miner that a request for a websocket has looked up. -/
def WsPc.minerId? : WsPc → Option MinerId
  | .ping minerId => some minerId
  | .insert conn | .receiving conn => some conn.minerId
  | .getMiner | .signup | .getSignedUp | .closed | .answered _ => none

theorem WsRequest.checkMiner_minerId? {verify : Verify} {r : WsRequest} {miner : Miner} {id : MinerId}
    (h : (r.checkMiner verify miner).minerId? = some id) : id = miner.id := by
  have same : (WsPc.ping miner.id).minerId? = some id → id = miner.id := fun h => (Option.some.inj h).symm
  unfold WsRequest.checkMiner at h
  split at h
  · split at h
    · split at h
      · exact same h
      · cases h
    · exact same h
    · exact same h
  · cases h

theorem WsRequest.arrive_minerId? (now : ℕ) (r : WsRequest) : (r.arrive now).minerId? = none := by
  unfold WsRequest.arrive
  split <;> rfl

theorem WsPc.minerId?_of_conn? {pc : WsPc} {conn : AppClientConnection} (h : pc.conn? = some conn) :
    pc.minerId? = some conn.minerId := by
  cases pc <;> cases h <;> rfl

/-- The miner of a request has a row. -/
theorem WsPc.step_minerId? {verify : Verify} {r : WsRequest} {m m' : WsMemory} {i : WsInput} {pc pc' : WsPc}
    (h : pc.step verify r m i = some (m', pc')) {id : MinerId} (hid : pc'.minerId? = some id) :
    pc.minerId? = some id ∨ ∃ miner ∈ m.db.miners.rows, miner.id = id := by
  have found : ∀ {o : CallOutcome} {miner : Miner}, getMinerByPubkeyStr o r.pubkey m.db = .ok miner →
      (r.checkMiner verify miner).minerId? = some id → ∃ miner ∈ m.db.miners.rows, miner.id = id := by
    intro o miner hok hmid
    have hfind : m.db.miners.find? r.pubkey = some miner := query_ok hok
    exact ⟨miner, (Table.find?_eq_some.1 hfind).1, (WsRequest.checkMiner_minerId? hmid).symm⟩
  unfold WsPc.step at h
  split at h
  · split at h
    · next hok =>
      cases h
      exact Or.inr (found hok hid)
    all_goals cases h; cases hid
  · split at h <;> cases h <;> cases hid
  · split at h
    · next hok =>
      cases h
      exact Or.inr (found hok hid)
    · cases h
      cases hid
  · next ok uuid minerId =>
    cases ok with
    | true =>
      cases h
      exact Or.inl hid
    | false =>
      cases h
      cases hid
  · split at h <;> cases h
    · cases hid
    · exact Or.inl hid
  · cases h
    cases hid
  · cases h

/-! ### The miners of entries -/

namespace Mining

/-- All entries, those of snapshots too, have the property. -/
structure Entries (Q : Uuid → InternalMessageSubmission → Prop) (s : Mining) : Prop where
  epoch : ∀ {uuid sub}, s.mem.epochHashes.submissions.lookup uuid = some sub → Q uuid sub
  rounds : ∀ x ∈ s.history.rounds, ∀ e ∈ x.2.entries, Q e.1 e.2

variable {su : MiningSetup} {s s' : Mining} {a : Action} {Q Q' : Uuid → InternalMessageSubmission → Prop}

theorem Entries.mono (hs : s.Entries Q) (hQ : ∀ {uuid sub}, Q uuid sub → Q' uuid sub) : s.Entries Q' where
  epoch h := hQ (hs.epoch h)
  rounds x hx e he := hQ (hs.rounds x hx e he)

/-- The snapshots after a step are those before, or one of the submissions is new. -/
theorem Step.mem_rounds (h : Step su s a s') {x : Challenge × Submissions} (hx : x ∈ s'.history.rounds) :
    x ∈ s.history.rounds ∨ x.2 = s.mem.epochHashes.submissions := by
  cases h with
  | @main input m pc ev hstep =>
    rw [event_rounds] at hx
    cases ev with
    | snapshot r =>
      rcases List.mem_append.1 hx with hx | hx
      · exact Or.inl hx
      · rw [List.mem_singleton.1 hx]
        generalize s.main = pc₀ at hstep
        cases hstep with
        | snapshot he => exact Or.inr (by rw [he])
    | _ => exact Or.inl hx
  | watcher _ hstep =>
    cases hstep with
    | op =>
      replace hx : x ∈ (s.history.exec s.mem _).rounds := hx
      rw [History.exec_rounds] at hx
      exact Or.inl hx
    | _ => exact Or.inl hx
  | handler =>
    replace hx : x ∈ (s.history.accept _ _).rounds := hx
    rw [History.accept_rounds] at hx
    exact Or.inl hx
  | _ => exact Or.inl hx

/-- What holds of every entry that a handler is about to write holds of all entries. -/
theorem Entries.step (hs : s.Entries Q) (h : Step su s a s')
    (hwrite : ∀ msg minerId validated, (msg, .write minerId validated) ∈ s.handlers →
      Q msg.uuid (msg.submission su.drillx minerId)) : s'.Entries Q where
  epoch {uuid sub} hsub := by
    rcases h.entry hsub with hold | ⟨msg, minerId, validated, hmem, rfl, rfl⟩
    · exact hs.epoch hold
    · exact hwrite msg minerId validated hmem
  rounds x hx e he := by
    rcases h.mem_rounds hx with hx | hx
    · exact hs.rounds x hx e he
    · rw [hx] at he
      exact hs.epoch (AList.mem_lookup_iff.2 he)

theorem start_entries (Q : Uuid → InternalMessageSubmission → Prop) (proof : Proof) (db : Database) :
    (start proof db).Entries Q where
  epoch h := by cases h
  rounds x hx := by cases hx

/-- All miners that handlers and entries name have the property. -/
structure Miners (P : MinerId → Prop) (s : Mining) : Prop where
  handlers : ∀ t ∈ s.handlers, ∀ id, t.2.minerId? = some id → P id
  entries : s.Entries fun _ sub => P sub.minerId

variable {P P' : MinerId → Prop}

theorem Miners.mono (hs : s.Miners P) (hP : ∀ {id}, P id → P' id) : s.Miners P' where
  handlers t ht id hid := hP (hs.handlers t ht id hid)
  entries := hs.entries.mono hP

theorem Miners.step (hs : s.Miners P) (hsockets : ∀ {addr conn}, s.mem.sockets.lookup addr = some conn → P conn.minerId)
    (h : Step su s a s') : s'.Miners P where
  handlers t ht id hid := by
    rcases h.mem_handlers ht with ht | ⟨msg, -, rfl⟩ | ⟨k, pc, -, hk, hstep⟩
    · exact hs.handlers t ht id hid
    · cases hid
    · rcases hstep.minerId? hid with hold | ⟨-, conn, hconn, rfl⟩
      · exact hs.handlers _ (List.mem_of_getElem? hk) id hold
      · exact hsockets hconn
  entries := hs.entries.step h fun msg minerId validated hmem => hs.handlers _ hmem minerId rfl

theorem start_miners (P : MinerId → Prop) (proof : Proof) (db : Database) : (start proof db).Miners P where
  handlers t ht := by cases ht
  entries := start_entries _ proof db

end Mining

/-! ### The server -/

namespace Server

/-- Miners and balances are in step, and everyone who is connected or has an entry has a balance. -/
structure Enrolled (s : Server) : Prop where
  inStep : s.db.InStep
  requests : ∀ t ∈ s.serving.requests, ∀ id, t.2.minerId? = some id → s.db.rewards.Has id
  sockets : ∀ {addr conn}, s.serving.mem.sockets.lookup addr = some conn → s.db.rewards.Has conn.minerId
  miners : s.mining.Miners s.db.rewards.Has
  billed : s.mining.Billed

variable {su : ServerSetup} {s s' : Server} {a : Action}

/-- The solution for which an action starts a handler. -/
def delivered? (s : Server) : Action → Option BestSolution
  | .serving .deliver =>
    match s.serving.channel with
    | .bestSolution msg :: _ => some msg
    | _ => none
  | _ => none

/-- For the tasks that mine, what the others do are steps of their own; solutions come from the channel. -/
theorem mining_cases (h : step su s a = some s') :
    s'.mining = s.mining ∨ ∃ b, Mining.step su.mining s.mining b = some s'.mining ∧
      (∀ msg, b = .message msg → s.delivered? a = some msg) ∧
      ∀ k, b = .handler k → a = .serving (.assigning (.mining (.handler k))) := by
  rcases serving_cases h with ⟨b, rfl, hb⟩ | ⟨-, db, he⟩
  · unfold mining
    generalize s'.serving = t at hb
    cases Serving.step_sound hb with
    | assigning _ hmessage ht =>
      cases Assigning.step_sound ht with
      | @mining c mining _ hstep =>
        exact Or.inr ⟨c, hstep, fun msg hc => absurd (by rw [hc]) (hmessage msg), fun k hc => by rw [hc]⟩
      | allocate | write => exact Or.inr ⟨.nonceRanges _ _, rfl, by simp, by simp⟩
      | _ => exact Or.inl rfl
    | requestStep _ hstep =>
      cases hstep with
      | @check _ _ _ db => exact Or.inr ⟨.database db, rfl, by simp, by simp⟩
      | ping | taken => exact Or.inl rfl
      | enter | close => exact Or.inr ⟨.connections _, rfl, by simp, by simp⟩
    | solution hchannel ht =>
      cases Assigning.step_sound ht with
      | mining _ hstep =>
        refine Or.inr ⟨_, hstep, fun msg hc => ?_, by simp⟩
        cases hc
        simp [delivered?, hchannel]
    | ping | sweep => exact Or.inr ⟨.connections _, rfl, by simp, by simp⟩
    | _ => exact Or.inl rfl
  · have hmining : s'.mining = { s.mining with mem.db := db } := congrArg (fun t : Serving => t.assigning.mining) he
    exact Or.inr ⟨.database db, by rw [hmining]; rfl, by simp, by simp⟩

theorem mining_step (h : step su s a = some s') :
    s'.mining = s.mining ∨ ∃ b, Mining.step su.mining s.mining b = some s'.mining :=
  (mining_cases h).imp_right fun ⟨b, hb, _⟩ => ⟨b, hb⟩

/-- Miners and balances that were known stay known. -/
theorem step_extends (h : step su s a = some s') : s.db.Extends s'.db := by
  rcases hb : s.treasuryAction? su a with _ | b
  · exact (treasury_idles h hb).ledger.extends
  · exact (Treasury.step_sound (treasury_step h hb)).extends

/-- Sign-ups write both rows; the other tasks keep the keys. -/
theorem step_inStep (hs : s.db.InStep) (h : step su s a = some s') : s'.db.InStep := by
  rcases hb : s.treasuryAction? su a with _ | b
  · exact hs.of_keys (treasury_idles h hb).ledger.keys
  · have hstep := Treasury.step_sound (treasury_step h hb)
    by_cases hsignup : ∃ o id pubkey, b = .signup o id pubkey
    · obtain ⟨o, id, pubkey, rfl⟩ := hsignup
      have hdb : (signupUserTransaction o id pubkey s.db).2 = s'.db :=
        congrArg Treasury.db (Option.some.inj (treasury_step h hb))
      rw [← hdb]
      exact hs.signupUserTransaction o id pubkey
    · have hother : Signups.step su.verify (Signups.start s.db) (.other s'.db) = some ((Signups.start s.db).setDb s'.db) :=
        hstep.other (fun o id pubkey he => hsignup ⟨o, id, pubkey, he⟩) rfl
      exact Signups.InStep.step (s := Signups.start s.db) hs hother

/-- The miner of a request is one of before, or was just found. -/
theorem request_minerId? (h : step su s a = some s') {t : WsRequest × WsPc} (ht : t ∈ s'.serving.requests) {id : MinerId}
    (hid : t.2.minerId? = some id) :
    (∃ t₀ ∈ s.serving.requests, t₀.2.minerId? = some id) ∨ ∃ miner ∈ s.db.miners.rows, miner.id = id := by
  rcases serving_step h with he | ⟨b, hb⟩
  · rw [he] at ht
    exact Or.inl ⟨t, ht, hid⟩
  · by_cases hreq : ∃ k input, b = .requestStep k input
    · obtain ⟨k, input, rfl⟩ := hreq
      obtain ⟨r, pc, m, pc', hk, hstep, he⟩ := Serving.stepRequest_eq hb
      rw [he] at ht
      rcases List.mem_or_eq_of_mem_set ht with ht | rfl
      · exact Or.inl ⟨t, ht, hid⟩
      · rcases WsPc.step_minerId? hstep hid with hold | hrow
        · exact Or.inl ⟨(r, pc), List.mem_of_getElem? hk, hold⟩
        · exact Or.inr hrow
    · refine Or.inl ⟨t, ?_, hid⟩
      cases b with
      | request r =>
        rw [← Option.some.inj hb] at ht
        rcases List.mem_append.1 ht with ht | ht
        · exact ht
        · rw [List.mem_singleton.1 ht, WsRequest.arrive_minerId?] at hid
          cases hid
      | requestStep k input => exact absurd ⟨k, input, rfl⟩ hreq
      | _ =>
        generalize s'.serving = t' at hb ht
        cases Serving.step_sound hb <;> exact ht

theorem Enrolled.step (hs : s.Enrolled) (h : step su s a = some s') : s'.Enrolled := by
  have keep : ∀ {id}, s.db.rewards.Has id → s'.db.rewards.Has id := (step_extends h).has
  refine ⟨step_inStep hs.inStep h, fun t ht id hid => ?_, fun {addr conn} hconn => ?_, ?_, ?_⟩
  · rcases request_minerId? h ht hid with ⟨t₀, ht₀, hid₀⟩ | ⟨miner, hminer, rfl⟩
    · exact keep (hs.requests t₀ ht₀ id hid₀)
    · exact keep (hs.inStep.reward miner hminer)
  · rcases serving_step h with he | ⟨b, hb⟩
    · rw [he] at hconn
      exact keep (hs.sockets hconn)
    · rcases (Serving.step_sound hb).sockets hconn with hold | ⟨t, ht, -, hpc⟩
      · exact keep (hs.sockets hold)
      · exact keep (hs.requests t ht _ (WsPc.minerId?_of_conn? hpc))
  · rcases mining_step h with he | ⟨b, hb⟩
    · rw [he]
      exact hs.miners.mono keep
    · exact (hs.miners.step hs.sockets (Mining.step_sound hb)).mono keep
  · rcases mining_step h with he | ⟨b, hb⟩
    · rw [he]
      exact hs.billed
    · exact hs.billed.step (Mining.step_sound hb)

theorem start_enrolled (proof : Proof) {db : Database} (hdb : db.InStep) : (start proof db).Enrolled where
  inStep := hdb
  requests t ht := by cases ht
  sockets h := by cases h
  miners := Mining.start_miners _ proof db
  billed := Mining.start_billed proof db

/-- A payout that is spawned pays miners with balances. -/
theorem Enrolled.mined (hs : s.Enrolled) {r : Round} (ha : s.treasuryAction? su a = some (.mined r)) :
    ∀ e ∈ r.submissions.entries, s.db.rewards.Has e.2.minerId := by
  have hmain : ∃ mr best i tx, s.mining.main = .stop mr best i tx true ∧ r = mr.payout su.mining.drillx best tx := by
    unfold treasuryAction? at ha
    split at ha
    · split at ha <;> cases ha
      next hpc => exact ⟨_, _, _, _, hpc, rfl⟩
    all_goals first | cases ha | (split at ha <;> cases ha)
  obtain ⟨mr, best, i, tx, hpc, rfl⟩ := hmain
  have hround : s.mining.history.rounds[mr.index]? = some (mr.old.challenge, mr.submissions) :=
    hs.billed.round mr (by rw [hpc]; rfl)
  exact hs.miners.entries.rounds _ (List.mem_of_getElem? hround)

end Server

end BitzPool
