import BitzPool.Serving

/-!
# Work and its author

A solution carries the address and the identifier of the connection it came over.  The ranges and the entry go by the
identifier, but the miner is looked up by the address, in the map as it is when the handler comes to it: by then another
client may have connected from there.  `work_attributed` says that entries have the miner of their connection when the
connection found at the address, if there is one, is of the miner that sent the solution.
-/

namespace BitzPool

open Transition Update

/-- The miner that a handler has found for its message. -/
def HandlerPc.minerId? : HandlerPc → Option MinerId
  | .proof minerId | .read minerId _ | .write minerId _ => some minerId
  | .window | .ranges | .socket | .done _ => none

/-- A handler finds the miner at the address of its message. -/
theorem HandlerStep.minerId? {dx : Drillx} {msg : BestSolution} {m m' : EpochMemory} {pc pc' : HandlerPc}
    (h : HandlerStep dx msg m pc m' pc') {minerId : MinerId} (hm : pc'.minerId? = some minerId) :
    pc.minerId? = some minerId ∨
      pc = .socket ∧ ∃ conn, m.sockets.lookup msg.addr = some conn ∧ conn.minerId = minerId := by
  cases h with
  | socket hconn => exact Or.inr ⟨rfl, _, hconn, Option.some.inj hm⟩
  | proof | read => exact Or.inl hm
  | late | inTime | refuse | ranges | write => cases hm

/-- A solution carries the address and the identifier of its connection. -/
theorem processMessage_author {socketUuid : Uuid} {who : SocketAddr} {m : WsMessage} {msg : BestSolution}
    (h : processMessage socketUuid who m = some (some (.bestSolution msg))) :
    msg.addr = who ∧ msg.uuid = socketUuid := by
  rcases processMessage_sound h with ⟨-, he⟩ | he | he | ⟨solution, he⟩ <;> cases he
  exact ⟨rfl, rfl⟩

namespace Serving

/-- The connection with the identifier was authenticated as the miner. -/
def Lives.Author (w : Lives) (uuid : Uuid) (minerId : MinerId) : Prop :=
  ∃ e ∈ w.authenticated, e.2.uuid = uuid ∧ e.2.minerId = minerId

/-- The solution whose miner an action looks up. -/
def lookingUp? (s : Serving) : Action → Option BestSolution
  | .assigning (.mining (.handler k)) => (s.assigning.mining.handlers[k]?.filter fun h => h.2 = .socket).map Prod.fst
  | _ => none

/-- The connection that is found at the address of a solution is of the miner who sent it. -/
def SameMiner (x : Serving × Lives) (a : Action) : Prop :=
  ∀ msg ∈ x.1.lookingUp? a, ∀ conn ∈ x.1.mem.sockets.lookup msg.addr, ∀ e ∈ x.2.authenticated,
    e.2.uuid = msg.uuid → conn.minerId = e.2.minerId

instance (x : Serving × Lives) (a : Action) : Decidable (SameMiner x a) :=
  inferInstanceAs (Decidable (∀ msg ∈ x.1.lookingUp? a, ∀ conn ∈ x.1.mem.sockets.lookup msg.addr,
    ∀ e ∈ x.2.authenticated, e.2.uuid = msg.uuid → conn.minerId = e.2.minerId))

/-- Solutions come from authenticated connections, and the miner found for one is the miner of its connection. -/
structure Attributed (x : Serving × Lives) : Prop where
  known : Known x
  channel : ∀ msg, .bestSolution msg ∈ x.1.channel → ∃ e ∈ x.2.authenticated, e.2.uuid = msg.uuid
  handlers : ∀ h ∈ x.1.assigning.mining.handlers, ∃ e ∈ x.2.authenticated, e.2.uuid = h.1.uuid
  found : ∀ h ∈ x.1.assigning.mining.handlers, ∀ minerId ∈ h.2.minerId?, x.2.Author h.1.uuid minerId
  entries : ∀ {uuid : Uuid} {sub : InternalMessageSubmission},
    x.1.mem.epochHashes.submissions.lookup uuid = some sub → x.2.Author uuid sub.minerId

variable {su : ServerSetup} {s s' : Serving} {a : Action} {w : Lives}

theorem Lives.Author.watch {uuid : Uuid} {minerId : MinerId} (h : w.Author uuid minerId) :
    (s.watchLives a w).Author uuid minerId := by
  obtain ⟨e, he, hu⟩ := h
  exact ⟨e, mem_watchLives he, hu⟩

/-- Handlers and entries are changed by the mining tasks, and handlers started for solutions from the channel. -/
theorem Step.work (h : Step su s a s') :
    (s'.assigning.mining.handlers = s.assigning.mining.handlers ∧ s'.mem.epochHashes = s.mem.epochHashes) ∨
      ∃ b, Mining.Step su.mining s.assigning.mining b s'.assigning.mining ∧
        (∀ msg, b = .message msg → .bestSolution msg ∈ s.channel) ∧
        ∀ k, b = .handler k → a = .assigning (.mining (.handler k)) := by
  cases h with
  | assigning _ hmessage ht =>
    rcases (Assigning.step_sound ht).work with hsame | ⟨b, rfl, hstep⟩
    · exact Or.inl hsame
    · refine Or.inr ⟨b, hstep, fun msg hb => absurd (by rw [hb]) (hmessage msg), fun k hb => by rw [hb]⟩
  | solution hchannel ht =>
    rcases (Assigning.step_sound ht).work with hsame | ⟨b, hb, hstep⟩
    · exact Or.inl hsame
    · cases hb
      refine Or.inr ⟨_, hstep, fun msg hb => ?_, fun k hb => (by cases hb)⟩
      cases hb
      rw [hchannel]
      exact List.mem_cons_self
  | _ => exact Or.inl ⟨rfl, rfl⟩

/-- Solutions that come into the channel are from a connection that is received from. -/
theorem Step.channel (h : Step su s a s') {msg : BestSolution} (hmsg : .bestSolution msg ∈ s'.channel) :
    .bestSolution msg ∈ s.channel ∨ ∃ t ∈ s.requests, ∃ conn, t.2.conn? = some conn ∧ msg.uuid = conn.uuid := by
  cases h with
  | @receive k m r conn out hk hout =>
    rcases List.mem_append.1 hmsg with hmsg | hmsg
    · exact Or.inl hmsg
    · have he : out = some (.bestSolution msg) := by
        cases out with
        | none => cases hmsg
        | some msg' => rw [List.mem_singleton.1 hmsg]
      rw [he] at hout
      exact Or.inr ⟨_, List.mem_of_getElem? hk, conn, rfl, (processMessage_author hout).2⟩
  | deliver hchannel | solution hchannel | pong hchannel =>
    rw [hchannel]
    exact Or.inl (List.mem_cons_of_mem _ hmsg)
  | _ => exact Or.inl hmsg

private theorem Attributed.handler (hx : Attributed (s, w)) {h : BestSolution × HandlerPc}
    (hstep : Step su s a s') (hh : h ∈ s'.assigning.mining.handlers) :
    (∃ e ∈ w.authenticated, e.2.uuid = h.1.uuid) ∧
      (h ∈ s.assigning.mining.handlers ∨ h.2 = .window ∨ ∃ k pc m, a = .assigning (.mining (.handler k)) ∧
        s.assigning.mining.handlers[k]? = some (h.1, pc) ∧ HandlerStep su.mining.drillx h.1 s.mem pc m h.2) := by
  rcases hstep.work with ⟨hsame, -⟩ | ⟨b, hb, hmessage, hhandler⟩
  · rw [hsame] at hh
    exact ⟨hx.handlers h hh, Or.inl hh⟩
  · rcases hb.mem_handlers hh with hh | ⟨msg, rfl, rfl⟩ | ⟨k, pc, rfl, hk, hpc⟩
    · exact ⟨hx.handlers h hh, Or.inl hh⟩
    · exact ⟨hx.channel msg (hmessage msg rfl), Or.inr (Or.inl rfl)⟩
    · exact ⟨hx.handlers (h.1, pc) (List.mem_of_getElem? hk), Or.inr (Or.inr ⟨k, pc, _, hhandler k rfl, hk, hpc⟩)⟩

private theorem Attributed.found_step (hx : Attributed (s, w)) (hC : SameMiner (s, w) a) (hstep : Step su s a s')
    {h : BestSolution × HandlerPc} (hh : h ∈ s'.assigning.mining.handlers) {minerId : MinerId}
    (hm : h.2.minerId? = some minerId) : w.Author h.1.uuid minerId := by
  obtain ⟨⟨e, he, hu⟩, hold | hwindow | ⟨k, pc, m, rfl, hk, hpc⟩⟩ := hx.handler hstep hh
  · exact hx.found h hold minerId hm
  · rw [hwindow] at hm
    cases hm
  · rcases hpc.minerId? hm with hm | ⟨rfl, conn, hconn, rfl⟩
    · exact hx.found (h.1, pc) (List.mem_of_getElem? hk) minerId hm
    · have hlooking : s.lookingUp? (.assigning (.mining (.handler k))) = some h.1 := by
        simp [lookingUp?, hk]
      exact ⟨e, he, hu, (hC h.1 hlooking conn hconn e he hu).symm⟩

theorem Attributed.step (hx : Attributed (s, w)) (hfresh : FreshUuids (s, w) a) (hC : SameMiner (s, w) a)
    (h : Step su s a s') : Attributed (s', s.watchLives a w) where
  known := hx.known.step hfresh h
  channel msg hmsg := by
    rcases h.channel hmsg with hmsg | ⟨t, ht, conn, hconn, hu⟩
    · obtain ⟨e, he, hu⟩ := hx.channel msg hmsg
      exact ⟨e, mem_watchLives he, hu⟩
    · exact ⟨_, mem_watchLives (hx.known.requests t ht conn hconn), hu.symm⟩
  handlers t ht := by
    obtain ⟨⟨e, he, hu⟩, -⟩ := hx.handler h ht
    exact ⟨e, mem_watchLives he, hu⟩
  found t ht minerId hm := (hx.found_step hC h ht hm).watch
  entries {uuid sub} hsub := by
    rcases h.work with ⟨-, hsame⟩ | ⟨b, hb, -, -⟩
    · have hsub : s'.mem.epochHashes.submissions.lookup uuid = some sub := hsub
      rw [hsame] at hsub
      exact (hx.entries hsub).watch
    · rcases hb.entry hsub with hsub | ⟨msg, minerId, validated, hmem, rfl, rfl⟩
      · exact (hx.entries hsub).watch
      · exact (hx.found _ hmem minerId rfl).watch

theorem start_attributed (proof : Proof) (db : Database) : Attributed (start proof db, ⟨[], [], [], []⟩) where
  known := start_known proof db
  channel := fun msg h => (by cases h)
  handlers := fun h hh => (by cases hh)
  found := fun h hh => (by cases hh)
  entries := fun h => (by cases h)

/-- In every run in which identifiers are fresh and the connection found at the address of a solution is of the miner
that sent it, every entry has the miner with which the connection of its identifier was authenticated. -/
theorem work_attributed (su : ServerSetup) (proof : Proof) (db : Database) {x : Serving × Lives} {as : List Action}
    (hfresh : Along (watched (step su) watchLives) FreshUuids (start proof db, ⟨[], [], [], []⟩) as)
    (hC : Along (watched (step su) watchLives) SameMiner (start proof db, ⟨[], [], [], []⟩) as)
    (h : run (watched (step su) watchLives) (start proof db, ⟨[], [], [], []⟩) as = some x) {uuid : Uuid}
    {sub : InternalMessageSubmission} (hsub : x.1.mem.epochHashes.submissions.lookup uuid = some sub) :
    x.2.Author uuid sub.minerId ∧ ∀ e ∈ x.2.authenticated, e.2.uuid = uuid → e.2.minerId = sub.minerId := by
  have hx : Attributed x := by
    refine run_invariant (watched_invariant fun hx hC hstep => ?_) (start_attributed proof db) (hfresh.and hC) h
    exact Attributed.step hx hC.1 hC.2 (step_sound hstep)
  have hauthor := hx.entries hsub
  refine ⟨hauthor, fun e he hu => ?_⟩
  obtain ⟨e', he', hu', hm⟩ := hauthor
  rw [hx.known.unique e he e' he' (hu.trans hu'.symm)]
  exact hm

/-- The client of miner 1 has sent a solution and disconnects once it is handled; miner 2 connects from the same address
and sends the first nonce of its range. -/
def handOver : List Action :=
  login 0 (.v4 0 1) 1 ++ getRange 0 0 (.v4 0 1) ++ sendSolution 0 1 ++ handleSolution 0 ++ [.requestStep 0 .close] ++
    signUp 1 (.v4 0 1) 2 ++ getRange 1 1 (.v4 0 1) ++
    [.receive 1 (.binary (2 :: List.replicate 16 1 ++ [0, 90, 98, 2, 0, 0, 0, 0] ++ List.replicate 32 0))] ++
    handleSolution 1

theorem work_attributed_example :
    ∃ x sub₁ sub₂, run (watched (step exampleServerSetup) watchLives) exampleServer handOver = some x ∧
      (x.1.mem.epochHashes.submissions.lookup 1 = some sub₁ ∧ x.1.mem.epochHashes.submissions.lookup 2 = some sub₂ ∧
        sub₁.minerId = 1 ∧ sub₂.minerId = 2) ∧ x.2.Author 1 sub₁.minerId ∧ x.2.Author 2 sub₂.minerId := by
  have hrun : ∃ x, run (watched (step exampleServerSetup) watchLives) exampleServer handOver = some x ∧
      (x.1.mem.epochHashes.submissions.lookup 1).map (fun sub => sub.minerId) = some 1 ∧
      (x.1.mem.epochHashes.submissions.lookup 2).map (fun sub => sub.minerId) = some 2 :=
    exists_of_run (by decide +kernel)
  obtain ⟨x, h, h₁, h₂⟩ := hrun
  obtain ⟨sub₁, hsub₁, hm₁⟩ := Option.map_eq_some_iff.1 h₁
  obtain ⟨sub₂, hsub₂, hm₂⟩ := Option.map_eq_some_iff.1 h₂
  have hfresh : Along (watched (step exampleServerSetup) watchLives) FreshUuids exampleServer handOver := by
    decide +kernel
  have hsame : Along (watched (step exampleServerSetup) watchLives) SameMiner exampleServer handOver := by
    decide +kernel
  exact ⟨x, sub₁, sub₂, h, ⟨hsub₁, hsub₂, hm₁, hm₂⟩, (work_attributed exampleServerSetup _ _ hfresh hsame h hsub₁).1,
    (work_attributed exampleServerSetup _ _ hfresh hsame h hsub₂).1⟩

/-- The client disconnects while its solution is in the channel, and another connects from the same address. -/
def takeOver : List Action :=
  login 0 (.v4 0 1) 1 ++ getRange 0 0 (.v4 0 1) ++ sendSolution 0 1 ++ [.requestStep 0 .close] ++ signUp 1 (.v4 0 1) 2 ++
    handleSolution 0

/-- The entry of the first client has the miner of the second. -/
theorem work_misattributed :
    Along (watched (step exampleServerSetup) watchLives) FreshUuids exampleServer takeOver ∧
      ∃ x, run (watched (step exampleServerSetup) watchLives) exampleServer takeOver = some x ∧
        x.2.authenticated = [(.v4 0 1, ⟨1, filled 7, 1, "-"⟩), (.v4 0 1, ⟨2, filled 8, 2, "-"⟩)] ∧
        ((x.1.mem.epochHashes.submissions.lookup 1).map fun sub => sub.minerId) = some 2 :=
  ⟨by decide +kernel, exists_of_run (by decide +kernel)⟩

end Serving

end BitzPool
