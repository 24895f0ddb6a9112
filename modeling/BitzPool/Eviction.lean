import BitzPool.Attribution

/-!
# Connections that are removed from the map

Three tasks remove an entry by its address: `handle_socket` when its connection ends, `ping_check_system` when a ping of its
copy of the map has failed, and `pong_tracking_system` when a pong of its copy is old.  Each has the connection in mind
that it saw before, but the address may belong to another by then, or the client may have answered since.
`evicted_when_due` says that a connection is removed only when it ended, failed its own ping, or was silent, if every task
finds the connection that it has in mind, and the sweep finds no newer pong of it.
-/

namespace BitzPool

open Transition Update

/-- The connection that the task is about to remove, with its address. -/
def PingPc.removing? : PingPc → Option (SocketAddr × Uuid)
  | .remove who socket _ => some (who, socket.uuid)
  | _ => none

def SweepPc.removing? : SweepPc → Option (SocketAddr × LastPong)
  | .removeSocket addr pong _ => some (addr, pong)
  | _ => none

namespace Serving

/-- The connection has answered a ping once, but not in the last 90 seconds. -/
structure Lives.Silent (w : Lives) (now : ℕ) (uuid : Uuid) : Prop where
  answered : ∃ t, (uuid, t) ∈ w.pongs
  silent : ∀ t, (uuid, t) ∈ w.pongs → t + 90000000000 ≤ now

/-- There is a reason to remove the connection. -/
def Lives.Due (w : Lives) (now : ℕ) (uuid : Uuid) : Prop :=
  uuid ∈ w.ended ∨ uuid ∈ w.failed ∨ w.Silent now uuid

/-- Connections whose entries a step takes away were due. -/
def EvictsDue (su : ServerSetup) (x : Serving × Lives) (a : Action) : Prop :=
  ∀ y ∈ watched (step su) watchLives x a, ∀ (addr : SocketAddr) (conn : AppClientConnection),
    x.1.mem.sockets.lookup addr = some conn → y.1.mem.sockets.lookup addr ≠ some conn → y.2.Due x.1.instant conn.uuid

/-- The address that an action removes, and the connection that its task has in mind. -/
def removing? (s : Serving) : Action → Option (SocketAddr × Uuid)
  | .requestStep k .close => s.requests[k]?.bind fun t => t.2.conn?.map fun conn => (t.1.addr, conn.uuid)
  | .ping .go => s.ping.removing?
  | .sweep .go => s.sweep.removing?.map fun e => (e.1, e.2.author)
  | _ => none

/-- The address that a step of the sweep removes, with its pong. -/
def sweeping? (s : Serving) : Action → Option (SocketAddr × LastPong)
  | .sweep .go => s.sweep.removing?
  | _ => none

/-- Tasks remove the connections that they have in mind, and the sweep finds their pongs as they were: no other was taken
from the channel, and none waits there. -/
def RemovesOwn (x : Serving × Lives) (a : Action) : Prop :=
  (∀ r ∈ x.1.removing? a, ∀ conn ∈ x.1.mem.sockets.lookup r.1, conn.uuid = r.2) ∧
    ∀ r ∈ x.1.sweeping? a, ∀ conn ∈ x.1.mem.sockets.lookup r.1,
      x.1.pongs.lookup r.1 = some r.2 ∧ .pong r.1 conn.uuid ∉ x.1.channel

instance (x : Serving × Lives) (a : Action) : Decidable (RemovesOwn x a) := inferInstanceAs (Decidable (_ ∧ _))

/-- What the tasks act on has happened: failed pings failed, old pongs are old, recorded pongs were sent, and a pong that was
sent is in the channel or has been recorded. -/
structure Minded (x : Serving × Lives) : Prop where
  known : Known x
  failed : ∀ socket, x.1.ping.Failed socket → socket.uuid ∈ x.2.failed
  old : ∀ r ∈ x.1.sweep.removing?, 90 < elapsedSecs x.1.instant r.2.instant
  sent : ∀ {addr : SocketAddr} {author : Uuid}, .pong addr author ∈ x.1.channel → ∃ t, (author, t) ∈ x.2.pongs
  recorded : ∀ {addr : SocketAddr} {pong : LastPong}, x.1.pongs.lookup addr = some pong →
    ∃ t, (pong.author, t) ∈ x.2.pongs
  pongs : ∀ p ∈ x.2.pongs, p.2 ≤ x.1.instant ∧ ∃ e ∈ x.2.authenticated, e.2.uuid = p.1 ∧
    (.pong e.1 p.1 ∈ x.1.channel ∨
      ∀ pong, x.1.pongs.lookup e.1 = some pong → pong.author = p.1 → p.2 ≤ pong.instant)

variable {su : ServerSetup} {s s' : Serving} {a : Action} {w : Lives}

/-! ### Which step takes an entry away -/

theorem Step.evicts (h : Step su s a s') {addr : SocketAddr} {conn : AppClientConnection}
    (hold : s.mem.sockets.lookup addr = some conn) (hgone : s'.mem.sockets.lookup addr ≠ some conn) :
    (∃ k r c, a = .requestStep k .close ∧ s.requests[k]? = some (r, .receiving c) ∧ r.addr = addr) ∨
      (∃ socket handles, a = .ping .go ∧ s.ping = .remove addr socket handles) ∨
        ∃ pong pongs, a = .sweep .go ∧ s.sweep = .removeSocket addr pong pongs := by
  have herase : ∀ addr', s.mem.sockets.erase addr' = s'.mem.sockets → addr' = addr := by
    intro addr' he
    by_contra hne
    rw [← he, AList.lookup_erase_ne (Ne.symm hne)] at hgone
    exact hgone hold
  cases h with
  | assigning hb _ ht => exact absurd ((congrArg _ ((Assigning.step_sound ht).sockets hb)).trans hold) hgone
  | solution _ ht => exact absurd ((congrArg _ ((Assigning.step_sound ht).sockets (by simp))).trans hold) hgone
  | @requestStep k input r pc pc' m hk hstep =>
    cases hstep with
    | enter hfree =>
      have hmem : addr ∈ s.mem.sockets := AList.lookup_isSome.1 (by rw [hold]; rfl)
      have hne : addr ≠ r.addr := by
        intro he
        exact hfree (he ▸ hmem)
      exact absurd ((AList.lookup_insert_ne hne).trans hold) hgone
    | close => exact Or.inl ⟨_, _, _, rfl, hk, herase _ rfl⟩
    | _ => exact absurd hold hgone
  | ping hstep =>
    cases hstep with
    | remove hpc =>
      rw [herase _ rfl] at hpc
      exact Or.inr (Or.inl ⟨_, _, rfl, hpc⟩)
    | _ => exact absurd hold hgone
  | sweep hstep =>
    cases hstep with
    | removeSocket hpc =>
      rw [herase _ rfl] at hpc
      exact Or.inr (Or.inr ⟨_, _, rfl, hpc⟩)
    | _ => exact absurd hold hgone
  | _ => exact absurd hold hgone

/-! ### What the tasks act on -/

/-- A pong is all that is put into the channel for a pong. -/
theorem processMessage_pong {socketUuid : Uuid} {who : SocketAddr} {m : WsMessage} {addr : SocketAddr} {author : Uuid}
    (h : processMessage socketUuid who m = some (some (.pong addr author))) :
    m = .pong ∧ addr = who ∧ author = socketUuid := by
  rcases processMessage_sound h with ⟨hm, he⟩ | he | he | ⟨solution, he⟩ <;> cases he
  exact ⟨hm, rfl, rfl⟩

private theorem failed_step (hx : Minded (s, w)) (h : Step su s a s') {socket : AppClientConnection}
    (hfailed : s'.ping.Failed socket) : socket.uuid ∈ (s.watchLives a w).failed := by
  cases h with
  | @ping input sockets pc hstep =>
    cases hstep with
    | move hold => exact List.mem_append_left _ (hx.failed _ (hold _ hfailed))
    | answer hi hnew =>
      rcases hnew _ hfailed with hold | ⟨rfl, rfl⟩
      · exact List.mem_append_left _ (hx.failed _ hold)
      · refine List.mem_append_right _ (Option.mem_toList.2 ?_)
        simp [failed?, hi]
    | @remove who socket' handles hpc =>
      refine List.mem_append_left _ (hx.failed _ ?_)
      rcases hfailed with hhandle | ⟨who', handles', he⟩
      · show s.ping.Failed socket
        rw [hpc]
        exact Or.inl hhandle
      · cases he
  | _ => exact List.mem_append_left _ (hx.failed _ hfailed)

private theorem old_step (hx : Minded (s, w)) (h : Step su s a s') :
    ∀ r ∈ s'.sweep.removing?, 90 < elapsedSecs s'.instant r.2.instant := by
  cases h with
  | elapse =>
    intro r hr
    have hold : 90 < elapsedSecs s.instant r.2.instant := hx.old r hr
    refine lt_of_lt_of_le hold ?_
    exact Nat.div_le_div_right (Nat.sub_le_sub_right (Nat.le_add_right _ _) _)
  | @sweep input m pc hstep =>
    intro r hr
    cases hstep with
    | move hpc =>
      cases pc with
      | removeSocket => exact absurd rfl (hpc _ _ _)
      | _ => cases hr
    | old hold =>
      cases hr
      exact hold
    | removeSocket | removePong => cases hr
  | _ => exact hx.old

private theorem sent_step (hx : Minded (s, w)) (h : Step su s a s') {addr : SocketAddr} {author : Uuid}
    (hmsg : .pong addr author ∈ s'.channel) : ∃ t, (author, t) ∈ (s.watchLives a w).pongs := by
  have hold : .pong addr author ∈ s.channel → ∃ t, (author, t) ∈ (s.watchLives a w).pongs := by
    intro h
    obtain ⟨t, ht⟩ := hx.sent h
    exact ⟨t, List.mem_append_left _ ht⟩
  cases h with
  | @receive k m r conn out hk hout =>
    rcases List.mem_append.1 hmsg with hmsg | hmsg
    · exact hold hmsg
    · cases out with
      | none => cases hmsg
      | some msg =>
        rw [← List.mem_singleton.1 hmsg] at hout
        obtain ⟨rfl, -, rfl⟩ := processMessage_pong hout
        exact ⟨s.instant, List.mem_append_right _ (Option.mem_toList.2 (by simp [ponged?, hk]))⟩
  | deliver hchannel | solution hchannel | pong hchannel =>
    refine hold ?_
    rw [hchannel]
    exact List.mem_cons_of_mem _ hmsg
  | _ => exact hold hmsg

private theorem recorded_step (hx : Minded (s, w)) (h : Step su s a s') {addr : SocketAddr} {pong : LastPong}
    (hpong : s'.pongs.lookup addr = some pong) : ∃ t, (pong.author, t) ∈ (s.watchLives a w).pongs := by
  have hold : s.pongs.lookup addr = some pong → ∃ t, (pong.author, t) ∈ (s.watchLives a w).pongs := by
    intro h
    obtain ⟨t, ht⟩ := hx.recorded h
    exact ⟨t, List.mem_append_left _ ht⟩
  cases h with
  | pong hchannel =>
    rcases lookup_insert_cases hpong with ⟨-, rfl⟩ | ⟨-, hpong⟩
    · obtain ⟨t, ht⟩ := hx.sent (hchannel ▸ List.mem_cons_self)
      exact ⟨t, List.mem_append_left _ ht⟩
    · exact hold hpong
  | sweep hstep =>
    cases hstep with
    | removePong => exact hold (lookup_erase_cases hpong).2
    | _ => exact hold hpong
  | _ => exact hold hpong

/-- A pong that was sent is still in the channel, has been taken from it, or is none of the recorded ones. -/
private theorem pongs_step (hx : Minded (s, w)) (h : Step su s a s') {p : Uuid × ℕ} (hp : p ∈ w.pongs) :
    p.2 ≤ s'.instant ∧ ∃ e ∈ w.authenticated, e.2.uuid = p.1 ∧ (.pong e.1 p.1 ∈ s'.channel ∨
      ∀ pong, s'.pongs.lookup e.1 = some pong → pong.author = p.1 → p.2 ≤ pong.instant) := by
  obtain ⟨hle, e, he, hu, hlast⟩ := hx.pongs p hp
  cases h with
  | elapse => exact ⟨Nat.le_add_right_of_le hle, e, he, hu, hlast⟩
  | receive => exact ⟨hle, e, he, hu, hlast.imp_left (List.mem_append_left _)⟩
  | @deliver msg channel readying hchannel hbest hpong =>
    refine ⟨hle, e, he, hu, hlast.imp_left fun hmem => ?_⟩
    have hmem : .pong e.1 p.1 ∈ s.channel := hmem
    rw [hchannel] at hmem
    exact (List.mem_cons.1 hmem).resolve_left fun heq => hpong _ _ heq.symm
  | solution hchannel =>
    refine ⟨hle, e, he, hu, hlast.imp_left fun hmem => ?_⟩
    have hmem : .pong e.1 p.1 ∈ s.channel := hmem
    rw [hchannel] at hmem
    exact (List.mem_cons.1 hmem).resolve_left (by simp)
  | @pong addr author channel hchannel =>
    refine ⟨hle, e, he, hu, ?_⟩
    have hnow : ∀ pong, (s.pongs.insert addr ⟨s.instant, author⟩).lookup addr = some pong → p.2 ≤ pong.instant := by
      intro pong hpong
      rw [AList.lookup_insert] at hpong
      cases hpong
      exact hle
    rcases hlast with hmem | hlast
    · have hmem : .pong e.1 p.1 ∈ s.channel := hmem
      rw [hchannel] at hmem
      rcases List.mem_cons.1 hmem with heq | hmem
      · cases heq
        exact Or.inr fun pong hpong _ => hnow pong hpong
      · exact Or.inl hmem
    · refine Or.inr fun pong hpong hauthor => ?_
      rcases lookup_insert_cases hpong with ⟨-, rfl⟩ | ⟨-, hpong⟩
      · exact hle
      · exact hlast pong hpong hauthor
  | sweep hstep =>
    refine ⟨hle, e, he, hu, hlast.imp_right fun hlast pong hpong => hlast pong ?_⟩
    cases hstep with
    | removePong => exact (lookup_erase_cases hpong).2
    | _ => exact hpong
  | _ => exact ⟨hle, e, he, hu, hlast⟩

/-- A pong that comes goes into the channel. -/
private theorem ponged_step (hx : Minded (s, w)) (h : Step su s a s') {p : Uuid × ℕ} (hp : s.ponged? a = some p) :
    p.2 ≤ s'.instant ∧ ∃ e ∈ w.authenticated, e.2.uuid = p.1 ∧ .pong e.1 p.1 ∈ s'.channel := by
  unfold ponged? at hp
  split at hp
  · split at hp
    · next r conn hk =>
      cases hp
      cases h with
      | receive hk' hout =>
        cases hk.symm.trans hk'
        cases hout
        have hknown := hx.known.requests _ (List.mem_of_getElem? hk) conn rfl
        exact ⟨le_rfl, _, hknown, rfl, List.mem_append_right _ (List.mem_singleton_self _)⟩
    · cases hp
  · cases hp

theorem Minded.step (hx : Minded (s, w)) (hfresh : FreshUuids (s, w) a) (h : Step su s a s') :
    Minded (s', s.watchLives a w) where
  known := hx.known.step hfresh h
  failed _ hfailed := failed_step hx h hfailed
  old := old_step hx h
  sent hmsg := sent_step hx h hmsg
  recorded hpong := recorded_step hx h hpong
  pongs p hp := by
    rcases List.mem_append.1 hp with hp | hp
    · obtain ⟨hle, e, he, hu, hlast⟩ := pongs_step hx h hp
      exact ⟨hle, e, mem_watchLives he, hu, hlast⟩
    · obtain ⟨hle, e, he, hu, hmem⟩ := ponged_step hx h (Option.mem_toList.1 hp)
      exact ⟨hle, e, mem_watchLives he, hu, Or.inl hmem⟩

theorem evictsDue_of_minded (hx : Minded (s, w)) (hC : RemovesOwn (s, w) a) : EvictsDue su (s, w) a := by
  rintro ⟨s', w'⟩ hy addr conn hold hgone
  obtain ⟨hstep, rfl⟩ := watched_eq_some.1 hy
  rcases (step_sound hstep).evicts hold hgone with ⟨k, r, c, rfl, hk, rfl⟩ | ⟨socket, handles, rfl, hping⟩ |
    ⟨pong, pongs, rfl, hsweep⟩
  · have hu : conn.uuid = c.uuid := hC.1 (r.addr, c.uuid) (by simp [removing?, hk, WsPc.conn?]) conn hold
    refine Or.inl ?_
    simp [watchLives, ended?, hk, hu]
  · have hremoving : s.ping.removing? = some (addr, socket.uuid) := by
      rw [show s.ping = _ from hping]
      rfl
    have hu : conn.uuid = socket.uuid := hC.1 (addr, socket.uuid) hremoving conn hold
    refine Or.inr (Or.inl ?_)
    rw [hu]
    exact List.mem_append_left _ (hx.failed socket (Or.inr ⟨addr, handles, hping⟩))
  · have hremoving : s.sweep.removing? = some (addr, pong) := by
      rw [show s.sweep = _ from hsweep]
      rfl
    have hu : conn.uuid = pong.author := hC.1 (addr, pong.author) (by simp [removing?, hremoving]) conn hold
    obtain ⟨hpong, hchannel⟩ := hC.2 (addr, pong) hremoving conn hold
    refine Or.inr (Or.inr ⟨?_, fun t ht => ?_⟩)
    · obtain ⟨t, ht⟩ := hx.recorded hpong
      rw [hu]
      exact ⟨t, List.mem_append_left _ ht⟩
    · -- the pong that was recorded last is the one that is old
      have ht : (conn.uuid, t) ∈ w.pongs := by simpa [watchLives, ponged?] using ht
      obtain ⟨-, e, he, heu, hlast⟩ := hx.pongs _ ht
      have hentry : e = (addr, conn) := hx.known.unique e he _ (hx.known.sockets hold) heu
      rw [hentry] at hlast
      have hle : t ≤ pong.instant := (hlast.resolve_left hchannel) pong hpong hu.symm
      have hold : 90 < elapsedSecs s.instant pong.instant := hx.old (addr, pong) hremoving
      unfold elapsedSecs at hold
      show t + 90000000000 ≤ s.instant
      omega

theorem start_minded (proof : Proof) (db : Database) : Minded (start proof db, ⟨[], [], [], []⟩) := by
  refine ⟨start_known proof db, ?_, fun r h => (by cases h), fun h => (by cases h), fun h => (by cases h),
    fun p h => (by cases h)⟩
  rintro socket (⟨handle, h, -⟩ | ⟨who, handles, h⟩) <;> cases h

/-- In every run in which identifiers are fresh, and each task that removes an entry finds there the connection it has in
mind, with its pong as the sweep saw it, a connection is removed only when it ended, failed its own ping, or has answered
once but not in the last 90 seconds. -/
theorem evicted_when_due (su : ServerSetup) (proof : Proof) (db : Database) {as : List Action}
    (hfresh : Along (watched (step su) watchLives) FreshUuids (start proof db, ⟨[], [], [], []⟩) as)
    (hC : Along (watched (step su) watchLives) RemovesOwn (start proof db, ⟨[], [], [], []⟩) as) :
    Along (watched (step su) watchLives) (EvictsDue su) (start proof db, ⟨[], [], [], []⟩) as := by
  refine along_of_invariant (I := Minded) (watched_invariant (D := fun x a => FreshUuids x a ∧ RemovesOwn x a) ?_)
    (fun hx hC => evictsDue_of_minded hx hC.2) (start_minded proof db) (hfresh.and hC)
  exact fun hx hC hstep => Minded.step hx hC.1 (step_sound hstep)

/-- A connection that has answered one ping is swept 91 seconds later. -/
def sweepSilent : List Action :=
  login 0 (.v4 0 1) 1 ++ [.receive 0 .pong, .deliver, .elapse 91000000000, .sweep (.clone [(.v4 0 1, ⟨0, 1⟩)]), .sweep .go,
    .sweep .go, .sweep .go]

/-- Connection 1 has ended when its address is taken again, and connection 2 has answered one ping when it is swept 91
seconds later. -/
def sweepSuccessor : List Action :=
  login 0 (.v4 0 1) 1 ++ [.receive 0 .pong, .deliver, .requestStep 0 .close] ++ signUp 1 (.v4 0 1) 2 ++
    [.receive 1 .pong, .deliver, .elapse 91000000000, .sweep (.clone [(.v4 0 1, ⟨0, 2⟩)]), .sweep .go, .sweep .go,
      .sweep .go]

theorem evicted_when_due_example :
    (∃ x, run (watched (step exampleServerSetup) watchLives) exampleServer sweepSuccessor = some x ∧
      x.1.mem.sockets.keys = [] ∧ x.2.ended = [1] ∧ x.2.failed = []) ∧
    Along (watched (step exampleServerSetup) watchLives) (EvictsDue exampleServerSetup) exampleServer sweepSuccessor :=
  ⟨exists_of_run (by decide +kernel), evicted_when_due exampleServerSetup _ _ (by decide +kernel) (by decide +kernel)⟩

/-- After the run `as` the connection 2 of another client is at the address that connection 1 had; the step `a` removes it,
though it has not ended, was never pinged, and has sent no pong. -/
def Evicted (as : List Action) (a : Action) : Prop :=
  ∃ x, run (watched (step exampleServerSetup) watchLives) exampleServer as = some x ∧
    x.1.mem.sockets.lookup (.v4 0 1) = some ⟨2, filled 8, 2, "-"⟩ ∧
    ∃ y ∈ watched (step exampleServerSetup) watchLives x a, y.1.mem.sockets.lookup (.v4 0 1) = none ∧
      2 ∉ y.2.ended ∧ 2 ∉ y.2.failed ∧ ∀ p ∈ y.2.pongs, p.1 ≠ 2

/-- Connection 1 is swept, and ends when its address is taken again. -/
def endsLate : List Action := sweepSilent ++ signUp 1 (.v4 0 1) 2

/-- A ping of connection 1 fails when its address is taken again. -/
def failsLate : List Action :=
  login 0 (.v4 0 1) 1 ++ [.ping (.clone [(.v4 0 1, ⟨1, filled 7, 1, "-"⟩)]), .requestStep 0 .close] ++
    signUp 1 (.v4 0 1) 2 ++ [.ping (.answer 0 false), .ping .go]

/-- The pong of connection 1 outlives it. -/
def sweptLate : List Action :=
  login 0 (.v4 0 1) 1 ++ [.receive 0 .pong, .deliver, .requestStep 0 .close, .elapse 91000000000] ++
    signUp 1 (.v4 0 1) 2 ++ [.sweep (.clone [(.v4 0 1, ⟨0, 1⟩)]), .sweep .go]

theorem evicted_for_another :
    Evicted endsLate (.requestStep 0 .close) ∧ Evicted failsLate (.ping .go) ∧ Evicted sweptLate (.sweep .go) :=
  ⟨exists_of_run (by decide +kernel), exists_of_run (by decide +kernel), exists_of_run (by decide +kernel)⟩

end Serving

end BitzPool
