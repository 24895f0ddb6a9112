import BitzPool.Eviction

/-!
# Connections that are found dead

What `pong_tracking_system` and `ping_check_system` find in a pass they remove before the pass is over, although clients come
and go meanwhile, and pongs come in: a connection at an address whose pong is old when the pongs are copied, or whose ping
has failed, is gone when the pass ends, and as identifiers are fresh it does not come back (`dead_removed`).
-/

namespace BitzPool

open Transition Update

/-! ### What the watchers have yet to remove -/

/-- A pong of the address is among those still to be looked at, and it is old. -/
def OldIn (now : ℕ) (addr : SocketAddr) (pongs : List (SocketAddr × LastPong)) : Prop :=
  ∃ pong, (addr, pong) ∈ pongs ∧ 90 < elapsedSecs now pong.instant

/-- The sweep is going to remove what it finds at the address. -/
def SweepPc.Dooms (now : ℕ) (addr : SocketAddr) : SweepPc → Prop
  | .top => False
  | .scan pongs | .removePong _ pongs => OldIn now addr pongs
  | .removeSocket addr' _ pongs => addr' = addr ∨ OldIn now addr pongs

def FailedIn (addr : SocketAddr) (handles : List PingHandle) : Prop := ∃ socket, ⟨addr, socket, some false⟩ ∈ handles

def PingPc.Dooms (addr : SocketAddr) : PingPc → Prop
  | .top => False
  | .wait handles => FailedIn addr handles
  | .remove who _ handles => who = addr ∨ FailedIn addr handles

theorem OldIn.mono {now now' : ℕ} {addr : SocketAddr} {pongs : List (SocketAddr × LastPong)} (h : OldIn now addr pongs)
    (hle : now ≤ now') : OldIn now' addr pongs := by
  obtain ⟨pong, hmem, hold⟩ := h
  refine ⟨pong, hmem, lt_of_lt_of_le hold ?_⟩
  exact Nat.div_le_div_right (Nat.sub_le_sub_right hle _)

theorem SweepPc.Dooms.mono {now now' : ℕ} {addr : SocketAddr} {pc : SweepPc} (h : pc.Dooms now addr) (hle : now ≤ now') :
    pc.Dooms now' addr := by
  cases pc with
  | top => exact h
  | scan pongs => exact OldIn.mono h hle
  | removePong addr' pongs => exact OldIn.mono h hle
  | removeSocket addr' pong pongs => exact h.imp_right fun hold => hold.mono hle

/-- The sweep comes to the address, and removes what it finds there. -/
theorem SweepPc.Dooms.step {now : ℕ} {addr : SocketAddr} {m m' : SweepMemory} {i : SweepInput} {pc pc' : SweepPc}
    (hd : pc.Dooms now addr) (h : pc.step now m i = some (m', pc')) :
    pc'.Dooms now addr ∨ m'.sockets = m.sockets.erase addr := by
  unfold SweepPc.step at h
  split at h
  · exact hd.elim
  · obtain ⟨pong, hmem, -⟩ := hd
    cases hmem
  · next addr' pong' pongs =>
    cases h
    left
    obtain ⟨pong, hmem, hold⟩ := hd
    rcases List.mem_cons.1 hmem with he | hmem
    · cases he
      rw [if_pos hold]
      exact Or.inl rfl
    · split
      · exact Or.inr ⟨pong, hmem, hold⟩
      · exact ⟨pong, hmem, hold⟩
  · cases h
    rcases hd with rfl | hold
    · exact Or.inr rfl
    · exact Or.inl hold
  · cases h
    exact Or.inl hd
  · cases h

private theorem FailedIn.answer {addr : SocketAddr} {handles handles' : List PingHandle} {i : ℕ} {ok : Bool}
    (hd : FailedIn addr handles) (h : answerPing handles i ok = some handles') : FailedIn addr handles' := by
  obtain ⟨socket, hmem⟩ := hd
  unfold answerPing at h
  split at h
  · next hi =>
    cases h
    exact ⟨socket, mem_set_of_ne hmem hi (by simp)⟩
  · cases h

theorem PingPc.Dooms.step {addr : SocketAddr} {sockets sockets' : Sockets} {i : PingInput} {pc pc' : PingPc}
    (hd : pc.Dooms addr) (h : pc.step sockets i = some (sockets', pc')) :
    pc'.Dooms addr ∨ sockets' = sockets.erase addr := by
  unfold PingPc.step at h
  split at h
  · exact hd.elim
  · obtain ⟨handles', hanswer, he⟩ := Option.map_eq_some_iff.1 h
    cases he
    exact Or.inl (FailedIn.answer hd hanswer)
  · obtain ⟨handles', hanswer, he⟩ := Option.map_eq_some_iff.1 h
    cases he
    exact Or.inl (hd.imp_right fun hd => hd.answer hanswer)
  · obtain ⟨socket, hmem⟩ := hd
    cases hmem
  · cases h
  · cases h
    obtain ⟨socket, hmem⟩ := hd
    rcases List.mem_cons.1 hmem with he | hmem
    · cases he
    · exact Or.inl ⟨socket, hmem⟩
  · cases h
    obtain ⟨socket, hmem⟩ := hd
    rcases List.mem_cons.1 hmem with he | hmem
    · cases he
      exact Or.inl (Or.inl rfl)
    · exact Or.inl (Or.inr ⟨socket, hmem⟩)
  · cases h
    rcases hd with rfl | hfailed
    · exact Or.inr rfl
    · exact Or.inl hfailed
  · cases h

/-- A sweep is going to remove all whose pong is old when it begins. -/
theorem SweepPc.dooms_of_clone {now : ℕ} {addr : SocketAddr} {m m' : SweepMemory} {pongs : List (SocketAddr × LastPong)}
    {pc pc' : SweepPc} (h : pc.step now m (.clone pongs) = some (m', pc')) {pong : LastPong}
    (hpong : m.pongs.lookup addr = some pong) (hold : 90 < elapsedSecs now pong.instant) : pc'.Dooms now addr := by
  cases pc with
  | top =>
    rw [SweepPc.step] at h
    split at h <;> cases h
    next hperm =>
      have hmem : (addr, pong) ∈ m.pongs.entries.map fun e => (e.1, e.2) :=
        List.mem_map.2 ⟨⟨addr, pong⟩, AList.mem_lookup_iff.1 hpong, rfl⟩
      exact ⟨pong, hperm.mem_iff.2 hmem, hold⟩
  | _ => cases h

/-- A connection whose ping fails is going to be removed. -/
theorem PingPc.dooms_of_answer {addr : SocketAddr} {sockets sockets' : Sockets} {i : ℕ} {pc pc' : PingPc}
    (h : pc.step sockets (.answer i false) = some (sockets', pc')) {handle : PingHandle}
    (hi : pc.handles[i]? = some handle) (haddr : handle.who = addr) : pc'.Dooms addr := by
  subst haddr
  have hanswer : ∀ {handles handles' : List PingHandle}, handles[i]? = some handle →
      answerPing handles i false = some handles' → FailedIn handle.who handles' := by
    intro handles handles' hi h
    rw [answerPing, hi] at h
    split at h
    · next he =>
      cases h
      cases he
      exact ⟨_, mem_set_self_of_getElem? hi⟩
    · cases h
  cases pc with
  | top => cases h
  | wait handles =>
    obtain ⟨handles', hhandles, he⟩ := Option.map_eq_some_iff.1 h
    cases he
    exact hanswer hi hhandles
  | remove who socket handles =>
    obtain ⟨handles', hhandles, he⟩ := Option.map_eq_some_iff.1 h
    cases he
    exact Or.inr (hanswer hi hhandles)

namespace Serving

variable {su : ServerSetup} {s s' : Serving} {a : Action} {addr : SocketAddr} {conn : AppClientConnection}

theorem Step.instant_le (h : Step su s a s') : s.instant ≤ s'.instant := by
  cases h with
  | elapse => exact Nat.le_add_right _ _
  | _ => exact Nat.le_refl _

theorem Step.sweep_eq (h : Step su s a s') (ha : ∀ input, a ≠ .sweep input) : s'.sweep = s.sweep := by
  cases h with
  | sweep => exact absurd rfl (ha _)
  | _ => rfl

theorem Step.ping_eq (h : Step su s a s') (ha : ∀ input, a ≠ .ping input) : s'.ping = s.ping := by
  cases h with
  | ping => exact absurd rfl (ha _)
  | _ => rfl

/-- What has to be removed is removed before it is off the agenda. -/
def Agenda (su : ServerSetup) (addr : SocketAddr) (A : Serving → Prop) : Prop :=
  ∀ {s a s'}, step su s a = some s' → A s → A s' ∨ s'.mem.sockets.lookup addr = none

theorem agenda_sweep (su : ServerSetup) (addr : SocketAddr) : Agenda su addr fun s => s.sweep.Dooms s.instant addr := by
  intro s a s' h hd
  have hstep : Step su s a s' := step_sound h
  by_cases ha : ∃ input, a = .sweep input
  · obtain ⟨input, rfl⟩ := ha
    obtain ⟨⟨m, pc⟩, hpc, rfl⟩ := Option.map_eq_some_iff.1 h
    refine (hd.step hpc).imp_right fun herase => ?_
    change m.sockets.lookup addr = none
    rw [herase]
    exact AList.lookup_erase _ _
  · left
    change s'.sweep.Dooms s'.instant addr
    rw [hstep.sweep_eq fun input he => ha ⟨input, he⟩]
    exact hd.mono hstep.instant_le

theorem agenda_ping (su : ServerSetup) (addr : SocketAddr) : Agenda su addr fun s => s.ping.Dooms addr := by
  intro s a s' h hd
  by_cases ha : ∃ input, a = .ping input
  · obtain ⟨input, rfl⟩ := ha
    obtain ⟨⟨sockets, pc⟩, hpc, rfl⟩ := Option.map_eq_some_iff.1 h
    refine (hd.step hpc).imp_right fun herase => ?_
    change sockets.lookup addr = none
    rw [herase]
    exact AList.lookup_erase _ _
  · left
    change s'.ping.Dooms addr
    rw [(step_sound h).ping_eq fun input he => ha ⟨input, he⟩]
    exact hd

/-! ### A connection is entered once -/

variable {w : Lives}

/-- A request that has a connection had it before, or it has just been authenticated. -/
theorem Step.conn? (h : Step su s a s') {k : ℕ} {t : WsRequest × WsPc} (ht : s'.requests[k]? = some t)
    (hconn : t.2.conn? = some conn) :
    (∃ t₀ : WsRequest × WsPc, s.requests[k]? = some t₀ ∧ t₀.2.conn? = some conn ∧ (t.2 = .insert conn → t₀.2 = .insert conn)) ∨
      a = .requestStep k (.ping true conn.uuid) ∧ s.authenticates? a = some (t.1.addr, conn) := by
  cases h with
  | @request r pc hpc =>
    rcases getElem?_concat_cases ht with ht | ⟨-, rfl⟩
    · exact Or.inl ⟨t, ht, hconn, id⟩
    · rw [show _ = none from hpc] at hconn
      cases hconn
  | @requestStep k' input r pc pc' m hk hstep =>
    rcases getElem?_set_cases ht with ⟨rfl, rfl⟩ | ⟨-, ht⟩
    · cases hstep with
      | check _ hpc' =>
        rw [show _ = none from hpc'] at hconn
        cases hconn
      | ping =>
        cases hconn
        exact Or.inr ⟨rfl, by simp [authenticates?, hk]⟩
      | enter =>
        cases hconn
        exact Or.inl ⟨_, hk, rfl, fun _ => rfl⟩
      | taken | close => cases hconn
    · exact Or.inl ⟨t, ht, hconn, id⟩
  | _ => exact Or.inl ⟨t, ht, hconn, id⟩

/-- A connection comes into the map from the request that has built it. -/
theorem Step.enters (h : Step su s a s') (hold : s.mem.sockets.lookup addr ≠ some conn)
    (hnew : s'.mem.sockets.lookup addr = some conn) :
    ∃ (k : ℕ) (r : WsRequest), s.requests[k]? = some (r, .insert conn) ∧ s'.requests[k]? = some (r, .receiving conn) := by
  have hsame : ∀ {sockets : Sockets}, sockets = s.mem.sockets → sockets.lookup addr ≠ some conn := by
    rintro _ rfl
    exact hold
  cases h with
  | assigning hb _ ht => exact absurd hnew (hsame ((Assigning.step_sound ht).sockets hb))
  | solution _ ht => exact absurd hnew (hsame ((Assigning.step_sound ht).sockets (by simp)))
  | @requestStep k input r pc pc' m hk hstep =>
    cases hstep with
    | enter =>
      rcases lookup_insert_cases hnew with ⟨-, rfl⟩ | ⟨-, hnew⟩
      · exact ⟨k, r, hk, List.getElem?_set_self (List.getElem?_eq_some_iff.1 hk).1⟩
      · exact absurd hnew hold
    | close => exact absurd (lookup_erase_cases hnew).2 hold
    | _ => exact absurd hnew hold
  | ping hstep =>
    cases hstep with
    | remove => exact absurd (lookup_erase_cases hnew).2 hold
    | _ => exact absurd hnew hold
  | sweep hstep =>
    cases hstep with
    | removeSocket => exact absurd (lookup_erase_cases hnew).2 hold
    | _ => exact absurd hnew hold
  | _ => exact absurd hnew hold

/-- The connection has been authenticated, and no request is about to enter it. -/
structure Entered (x : Serving × Lives) (addr : SocketAddr) (conn : AppClientConnection) : Prop where
  authenticated : (addr, conn) ∈ x.2.authenticated
  entered : ∀ t ∈ x.1.requests, t.2 ≠ .insert conn

theorem Entered.step (hx : Entered (s, w) addr conn) (hfresh : FreshUuids (s, w) a) (h : Step su s a s') :
    Entered (s', s.watchLives a w) addr conn where
  authenticated := mem_watchLives hx.authenticated
  entered := by
    intro t ht hinsert
    obtain ⟨k, hk⟩ := List.mem_iff_getElem?.1 ht
    have hconn : t.2.conn? = some conn := by rw [hinsert]; rfl
    rcases h.conn? hk hconn with ⟨t₀, ht₀, -, hback⟩ | ⟨-, hauth⟩
    · exact hx.entered t₀ (List.mem_of_getElem? ht₀) (hback hinsert)
    · exact hfresh _ hauth _ hx.authenticated rfl

/-- No two requests have one connection, and those in the map have been entered. -/
structure Distinct (x : Serving × Lives) : Prop where
  known : Known x
  once : ∀ {j k : ℕ} {t t' : WsRequest × WsPc} {conn : AppClientConnection}, x.1.requests[j]? = some t →
    x.1.requests[k]? = some t' → t.2.conn? = some conn → t'.2.conn? = some conn → j = k
  entered : ∀ {addr : SocketAddr} {conn : AppClientConnection}, x.1.mem.sockets.lookup addr = some conn →
    Entered x addr conn

private theorem once_step (hx : Distinct (s, w)) (hfresh : FreshUuids (s, w) a) (h : Step su s a s') {j k : ℕ}
    {t t' : WsRequest × WsPc} (hj : s'.requests[j]? = some t) (hk : s'.requests[k]? = some t')
    (ht : t.2.conn? = some conn) (ht' : t'.2.conn? = some conn) : j = k := by
  -- the connection of another request has been authenticated before
  have hclash : ∀ {i : ℕ} {t₀ : WsRequest × WsPc} {addr : SocketAddr}, s.requests[i]? = some t₀ → t₀.2.conn? = some conn →
      s.authenticates? a = some (addr, conn) → False := by
    intro i t₀ addr hi ht₀ hauth
    exact hfresh _ hauth _ (hx.known.requests t₀ (List.mem_of_getElem? hi) conn ht₀) rfl
  rcases h.conn? hj ht with ⟨t₀, hj₀, ht₀, -⟩ | ⟨rfl, hauth⟩
  · rcases h.conn? hk ht' with ⟨t₀', hk₀, ht₀', -⟩ | ⟨-, hauth⟩
    · exact hx.once hj₀ hk₀ ht₀ ht₀'
    · exact (hclash hj₀ ht₀ hauth).elim
  · rcases h.conn? hk ht' with ⟨t₀', hk₀, ht₀', -⟩ | ⟨he, -⟩
    · exact (hclash hk₀ ht₀' hauth).elim
    · cases he
      rfl

theorem Distinct.step (hx : Distinct (s, w)) (hfresh : FreshUuids (s, w) a) (h : Step su s a s') :
    Distinct (s', s.watchLives a w) where
  known := hx.known.step hfresh h
  once hj hk ht ht' := once_step hx hfresh h hj hk ht ht'
  entered := by
    intro addr conn hnew
    by_cases hold : s.mem.sockets.lookup addr = some conn
    · exact (hx.entered hold).step hfresh h
    · obtain ⟨k, r, -, hk⟩ := h.enters hold hnew
      refine ⟨(hx.known.step hfresh h).sockets hnew, fun t ht hinsert => ?_⟩
      obtain ⟨j, hj⟩ := List.mem_iff_getElem?.1 ht
      have hjk : j = k := once_step hx hfresh h hj hk (by rw [hinsert]; rfl) rfl
      rw [hjk, hk] at hj
      cases hj
      cases hinsert

theorem start_distinct (proof : Proof) (db : Database) : Distinct (start proof db, ⟨[], [], [], []⟩) where
  known := start_known proof db
  once hj := by cases hj
  entered h := by cases h

/-! ### A pass -/

/-- A connection that has been entered and is gone does not come back. -/
theorem Entered.gone_step (hx : Entered (s, w) addr conn) (h : Step su s a s')
    (hgone : s.mem.sockets.lookup addr ≠ some conn) : s'.mem.sockets.lookup addr ≠ some conn := by
  intro hnew
  obtain ⟨k, r, hk, -⟩ := h.enters hgone hnew
  exact hx.entered _ (List.mem_of_getElem? hk) rfl

/-- What is on the agenda of a watcher stays there, or is gone for good. -/
theorem agenda_run {A : Serving → Prop} (hA : Agenda su addr A) {x y : Serving × Lives} {as : List Action}
    (hx : Entered x addr conn) (hd : A x.1 ∨ x.1.mem.sockets.lookup addr ≠ some conn)
    (hfresh : Along (watched (step su) watchLives) FreshUuids x as)
    (h : run (watched (step su) watchLives) x as = some y) :
    Entered y addr conn ∧ (A y.1 ∨ y.1.mem.sockets.lookup addr ≠ some conn) := by
  refine run_invariant (I := fun x => Entered x addr conn ∧ (A x.1 ∨ x.1.mem.sockets.lookup addr ≠ some conn)) ?_
    ⟨hx, hd⟩ hfresh h
  rintro ⟨s, w⟩ a ⟨s', w'⟩ ⟨hx, hd⟩ hfresh h
  obtain ⟨hstep, rfl⟩ := watched_eq_some.1 h
  refine ⟨hx.step hfresh (step_sound hstep), ?_⟩
  rcases hd with hd | hgone
  · refine (hA hstep hd).imp_right fun hnone => ?_
    rw [hnone]
    exact nofun
  · exact Or.inr (hx.gone_step (step_sound hstep) hgone)

/-- What is on the agenda of a watcher, and off it later, is gone for good. -/
private theorem gone_of_agenda {A : Serving → Prop} (hA : Agenda su addr A) {x y z : Serving × Lives} {bs cs : List Action}
    (hx : Entered x addr conn) (hd : A x.1) (hfresh : Along (watched (step su) watchLives) FreshUuids x (bs ++ cs))
    (hy : run (watched (step su) watchLives) x bs = some y) (hz : run (watched (step su) watchLives) y cs = some z)
    (hover : ¬A y.1) : z.1.mem.sockets.lookup addr ≠ some conn := by
  obtain ⟨hentered, hd | hgone⟩ := agenda_run hA hx (Or.inl hd) hfresh.left hy
  · exact absurd hd hover
  · have hnone : Agenda su addr fun _ => False := fun _ h => h.elim
    obtain ⟨-, h | hgone⟩ := agenda_run hnone hentered (Or.inr hgone) (hfresh.right hy) hz
    · exact h.elim
    · exact hgone

/-- The action finds the address dead: the sweep copies an old pong of it, or a ping of it fails. -/
def FindsDead (s : Serving) (addr : SocketAddr) : Action → Prop
  | .sweep (.clone _) => ∃ pong ∈ s.pongs.lookup addr, 90 < elapsedSecs s.instant pong.instant
  | .ping (.answer i false) => ∃ handle ∈ s.ping.handles[i]?, handle.who = addr
  | _ => False

/-- The pass that the action belongs to is over. -/
def PassOver (s : Serving) : Action → Prop
  | .sweep _ => s.sweep = .top
  | .ping _ => s.ping = .top
  | _ => False

/-- Whoever is at an address that a watcher finds dead is gone when its pass is over, whatever happens meanwhile, and does
not come back. -/
theorem dead_removed (su : ServerSetup) (proof : Proof) (db : Database) {as bs cs : List Action} {a : Action}
    {x y z : Serving × Lives}
    (hfresh : Along (watched (step su) watchLives) FreshUuids (start proof db, ⟨[], [], [], []⟩) (as ++ (a :: bs ++ cs)))
    (hx : run (watched (step su) watchLives) (start proof db, ⟨[], [], [], []⟩) as = some x)
    (hy : run (watched (step su) watchLives) x (a :: bs) = some y) (hz : run (watched (step su) watchLives) y cs = some z)
    {addr : SocketAddr} {conn : AppClientConnection} (hconn : x.1.mem.sockets.lookup addr = some conn)
    (hdead : x.1.FindsDead addr a) (hover : y.1.PassOver a) : z.1.mem.sockets.lookup addr ≠ some conn := by
  have hdistinct : Distinct x := by
    refine run_invariant (watched_invariant (J := Distinct) (D := FreshUuids) ?_) (start_distinct proof db) hfresh.left hx
    exact fun hx hfresh hstep => hx.step hfresh (step_sound hstep)
  have hfresh' : Along (watched (step su) watchLives) FreshUuids x (a :: (bs ++ cs)) := hfresh.right hx
  obtain ⟨x', hx', hbs⟩ := run_cons.1 hy
  obtain ⟨hstep, hwatch⟩ := watched_eq_some.1 hx'
  have hentered : Entered x' addr conn := by
    have := (hdistinct.entered hconn).step hfresh'.1 (step_sound hstep)
    rwa [← hwatch] at this
  have hrest : Along (watched (step su) watchLives) FreshUuids x' (bs ++ cs) := hfresh'.2 x' hx'
  cases a with
  | sweep input =>
    cases input with
    | clone pongs =>
      obtain ⟨pong, hpong, hold⟩ := hdead
      obtain ⟨⟨m, pc⟩, hpc, he⟩ := Option.map_eq_some_iff.1 hstep
      have hdooms : x'.1.sweep.Dooms x'.1.instant addr := by
        rw [← he]
        exact SweepPc.dooms_of_clone hpc hpong hold
      refine gone_of_agenda (agenda_sweep su addr) hentered hdooms hrest hbs hz fun hd => ?_
      rw [show y.1.sweep = .top from hover] at hd
      exact hd
    | go => exact hdead.elim
  | ping input =>
    cases input with
    | answer i ok =>
      cases ok with
      | true => exact hdead.elim
      | false =>
        obtain ⟨handle, hi, haddr⟩ := hdead
        obtain ⟨⟨sockets, pc⟩, hpc, he⟩ := Option.map_eq_some_iff.1 hstep
        have hdooms : x'.1.ping.Dooms addr := by
          rw [← he]
          exact PingPc.dooms_of_answer hpc hi haddr
        refine gone_of_agenda (agenda_ping su addr) hentered hdooms hrest hbs hz fun hd => ?_
        rw [show y.1.ping = .top from hover] at hd
        exact hd
    | clone | go => exact hdead.elim
  | _ => exact hdead.elim

/-- A client has answered a ping, and then not for 91 seconds. -/
def silence : List Action := login 0 (.v4 0 1) 1 ++ [.receive 0 .pong, .deliver, .elapse 91000000000]

/-- While the sweep is on its way, the client leaves and comes back from the same address. -/
def comesBack : List Action := [.requestStep 0 .close] ++ login 1 (.v4 0 1) 2 ++ List.replicate 4 (.sweep .go)

theorem dead_removed_example : ∃ x y z : Serving × Lives,
    run (watched (step exampleServerSetup) watchLives) exampleServer silence = some x ∧
    run (watched (step exampleServerSetup) watchLives) x (.sweep (.clone [(.v4 0 1, ⟨0, 1⟩)]) :: comesBack) = some y ∧
    run (watched (step exampleServerSetup) watchLives) y (login 2 (.v4 0 1) 3) = some z ∧
    z.1.mem.sockets.lookup (.v4 0 1) ≠ some ⟨1, filled 7, 1, "-"⟩ := by
  have hrun : ∃ x, run (watched (step exampleServerSetup) watchLives) exampleServer silence = some x ∧
      x.1.mem.sockets.lookup (.v4 0 1) = some ⟨1, filled 7, 1, "-"⟩ ∧
      (∃ pong ∈ x.1.pongs.lookup (.v4 0 1), 90 < elapsedSecs x.1.instant pong.instant) ∧
      ((run (watched (step exampleServerSetup) watchLives) x
          (.sweep (.clone [(.v4 0 1, ⟨0, 1⟩)]) :: comesBack)).any fun y =>
        y.1.sweep = .top ∧
          (run (watched (step exampleServerSetup) watchLives) y (login 2 (.v4 0 1) 3)).isSome = true) = true :=
    exists_of_run (by decide +kernel)
  obtain ⟨x, hx, hconn, hdead, hrun⟩ := hrun
  obtain ⟨y, hy, hrun⟩ := (Option.any_eq_true _ _).1 hrun
  obtain ⟨hover, hrun⟩ := of_decide_eq_true hrun
  obtain ⟨z, hz⟩ := Option.isSome_iff_exists.1 hrun
  exact ⟨x, y, z, hx, hy, hz, dead_removed exampleServerSetup _ _ (by decide +kernel) hx hy hz hconn hdead hover⟩

end Serving

end BitzPool
