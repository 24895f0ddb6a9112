import BitzPool.ResetOrder
import BitzPool.StartMining

/-!
# Nonces and their owners

Ranges are blocks of one size, taken from the counter one after another, so that no nonce has two owners as long as the
counter is not reset.  A reset sets the counter to 0 and then empties the ranges and the submissions, but says nothing to
the tasks that have taken a range or checked a nonce before.  `nonces_apart` says what keeps two epochs apart: no range is
handed out in the midst of a reset, none is still to be registered when the ranges are emptied, and no checked solution
is still to be written when the submissions are.

`Claims s u j` says that `u` has to do with block `j` in some way; each block is claimed by one client (`Owned`).
-/

namespace BitzPool

open Transition Update

/-! ### Blocks -/

/-- The block a nonce is in. -/
def nonceBlock (n : UInt64) : ℕ := n.toNat / 40000000

def NonceRange.block (r : NonceRange) : ℕ := nonceBlock r.start

/-- A range as the task hands it out: a block but for its last nonce. -/
structure IsBlock (r : NonceRange) : Prop where
  start : 40000000 ∣ r.start.toNat
  stop : r.stop.toNat = r.start.toNat + 39999999

theorem IsBlock.block_of_contains {r : NonceRange} {n : UInt64} (h : IsBlock r) (hn : r.contains n = true) :
    nonceBlock n = r.block := by
  obtain ⟨j, hj⟩ := h.start
  have hstop := h.stop
  simp only [NonceRange.contains, Bool.and_eq_true, decide_eq_true_eq, UInt64.le_iff_toNat_le,
    UInt64.lt_iff_toNat_lt] at hn
  simp only [nonceBlock, NonceRange.block]
  omega

/-- The range that is taken from a counter at a multiple of the size. -/
theorem isBlock_of_counter {nonce : UInt64} (hdvd : 40000000 ∣ nonce.toNat) (hlt : nonce.toNat + 40000000 < 2 ^ 64) :
    IsBlock ⟨nonce, nonce + nonceRangeSize - 1⟩ ∧ (nonce + nonceRangeSize).toNat = nonce.toNat + 40000000 := by
  have hsize : nonceRangeSize.toNat = 40000000 := rfl
  have hadd : (nonce + nonceRangeSize).toNat = nonce.toNat + 40000000 := by
    rw [UInt64.toNat_add, hsize, Nat.mod_eq_of_lt hlt]
  have htoNat : (1 : UInt64).toNat = 1 := rfl
  have hone : (1 : UInt64) ≤ nonce + nonceRangeSize := by
    rw [UInt64.le_iff_toNat_le, hadd, htoNat]
    omega
  refine ⟨⟨hdvd, ?_⟩, hadd⟩
  simp only
  rw [UInt64.toNat_sub_of_le _ _ hone, hadd, htoNat]
  omega

/-- The handler has found the nonce in a range and may still write. -/
def HandlerPc.pastRanges : HandlerPc → Bool
  | .socket | .proof _ | .read _ _ | .write _ _ => true
  | .window | .ranges | .done _ => false

/-- No nonce is in two of the ranges that are registered. -/
def EpochMemory.RangesDisjoint (m : EpochMemory) : Prop :=
  ∀ {u u' : Uuid} {l l' : List NonceRange} {i i' : ℕ} {r r' : NonceRange}, m.clientNonceRanges.lookup u = some l →
    m.clientNonceRanges.lookup u' = some l' → l[i]? = some r → l'[i']? = some r' → (u, i) ≠ (u', i') →
    ∀ n, r.contains n = true → r'.contains n = false

/-- The entries of two clients have different nonces. -/
def EpochHashes.NoncesApart (e : EpochHashes) : Prop :=
  ∀ {u u' : Uuid} {sub sub' : InternalMessageSubmission}, e.submissions.lookup u = some sub →
    e.submissions.lookup u' = some sub' → u ≠ u' → sub.suppliedNonce ≠ sub'.suppliedNonce

namespace Assigning

/-- The counter does not run over. -/
def CounterBelow (s : Assigning) : Action → Prop
  | .assign _ => s.pc.allocates = true → s.mining.mem.nonce.toNat + 40000000 < 2 ^ 64
  | _ => True

/-- A reset meets no assignment and no answer: no range is handed out in the midst of it, none is still to be registered
when the ranges are emptied, and no checked solution is still to be written when the submissions are. -/
def Apart (s : Assigning) : Action → Prop
  | .assign _ => s.pc.allocates = true → s.mining.resetting = false
  | .mining a => (s.mining.nextOp? a = some .resetRanges → ∀ x ∈ s.sends, x.2 = .done) ∧
      ((s.mining.nextOp? a).any EpochOp.resets = true → ∀ x ∈ s.mining.handlers, x.2.pastRanges = false)
  | _ => True

instance (s : Assigning) : (a : Action) → Decidable (CounterBelow s a)
  | .assign _ => inferInstanceAs (Decidable (_ → _))
  | .mining _ | .ready _ | .send _ _ => isTrue trivial

instance (s : Assigning) : (a : Action) → Decidable (Apart s a)
  | .assign _ => inferInstanceAs (Decidable (_ → _))
  | .mining a => inferInstanceAs (Decidable ((s.mining.nextOp? a = some .resetRanges → ∀ x ∈ s.sends, x.2 = .done) ∧
      ((s.mining.nextOp? a).any EpochOp.resets = true → ∀ x ∈ s.mining.handlers, x.2.pastRanges = false)))
  | .ready _ | .send _ _ => isTrue trivial

/-- The ranges `l` are registered for `u`, or a task has read them and will register them again. -/
inductive HasRanges (s : Assigning) (u : Uuid) (l : List NonceRange) : Prop
  | registered : s.mining.mem.clientNonceRanges.lookup u = some l → HasRanges s u l
  | read {t : SendTask} : (t, .write (some l)) ∈ s.sends → t.sender.uuid = u → HasRanges s u l

/-- `u` has a range of block `j` or will have it, or has a nonce of it that is checked or written. -/
inductive Claims (s : Assigning) (u : Uuid) (j : ℕ) : Prop
  | range {l : List NonceRange} {r : NonceRange} : HasRanges s u l → r ∈ l → r.block = j → Claims s u j
  | pending {t : SendTask} {pc : SendPc} :
      (t, pc) ∈ s.sends → pc ≠ .done → t.sender.uuid = u → t.msg.range.block = j → Claims s u j
  | checked {msg : BestSolution} {pc : HandlerPc} :
      (msg, pc) ∈ s.mining.handlers → pc.pastRanges = true → msg.uuid = u → nonceBlock msg.solution.nonce = j →
      Claims s u j
  | entry {sub : InternalMessageSubmission} :
      s.mining.mem.epochHashes.submissions.lookup u = some sub → nonceBlock sub.suppliedNonce = j → Claims s u j

/-- Every block is claimed by one client, and those from the counter on by none. -/
structure Owned (s : Assigning) : Prop where
  sequence : s.mining.InSequence
  aligned : 40000000 ∣ s.mining.mem.nonce.toNat
  isBlock : ∀ {u l}, HasRanges s u l → ∀ r ∈ l, IsBlock r
  pending : ∀ {t pc}, (t, pc) ∈ s.sends → pc ≠ .done → IsBlock t.msg.range
  one : ∀ {u u' j}, Claims s u j → Claims s u' j → u = u'
  nodup : ∀ {u l}, HasRanges s u l → (l.map NonceRange.block).Nodup
  fresh : ∀ {t pc u l}, (t, pc) ∈ s.sends → pc ≠ .done → HasRanges s u l →
    t.msg.range.block ∉ l.map NonceRange.block
  distinct : ∀ {k k' : ℕ} {t t' : SendTask} {pc pc' : SendPc}, s.sends[k]? = some (t, pc) →
    s.sends[k']? = some (t', pc') → pc ≠ .done → pc' ≠ .done → k ≠ k' → t.msg.range.block ≠ t'.msg.range.block
  below : s.mining.resetting = false → ∀ {u j}, Claims s u j → 40000000 * j < s.mining.mem.nonce.toNat
  zero : s.mining.resetting = true → s.mining.mem.nonce = 0
  cleared : s.mining.opLists.any emptying = true →
    s.mining.mem.clientNonceRanges = ∅ ∧ ∀ x ∈ s.sends, x.2 = .done

variable {su : MiningSetup} {s s' : Assigning} {a : Action}

/-! ### What follows -/

theorem Owned.rangesDisjoint (hs : s.Owned) : s.mining.mem.RangesDisjoint := by
  intro u u' l l' i i' r r' hl hl' hi hi' hne n hn
  by_contra hn'
  rw [Bool.not_eq_false] at hn'
  have hblock : r.block = r'.block := by
    have h := (hs.isBlock (.registered hl) r (List.mem_of_getElem? hi)).block_of_contains hn
    have h' := (hs.isBlock (.registered hl') r' (List.mem_of_getElem? hi')).block_of_contains hn'
    exact h.symm.trans h'
  have hu : u = u' := hs.one (.range (.registered hl) (List.mem_of_getElem? hi) hblock)
    (.range (.registered hl') (List.mem_of_getElem? hi') rfl)
  subst hu
  cases hl.symm.trans hl'
  have hnodup := hs.nodup (.registered hl)
  have hmap : (l.map NonceRange.block)[i]? = some r.block := by rw [List.getElem?_map, hi]; rfl
  have hmap' : (l.map NonceRange.block)[i']? = some r.block := by rw [List.getElem?_map, hi', hblock]; rfl
  have hii : i = i' := by
    obtain ⟨hlt, hget⟩ := List.getElem?_eq_some_iff.1 hmap
    obtain ⟨hlt', hget'⟩ := List.getElem?_eq_some_iff.1 hmap'
    exact (hnodup.getElem_inj_iff).1 (hget.trans hget'.symm)
  exact hne (by rw [hii])

theorem Owned.noncesApart (hs : s.Owned) : s.mining.mem.epochHashes.NoncesApart := by
  intro u u' sub sub' hsub hsub' hne he
  exact hne (hs.one (.entry hsub rfl) (.entry hsub' (by rw [he])))

/-! ### Steps that hand out nothing -/

section Ranges

variable {u : Uuid} {l : List NonceRange}

theorem hasRanges_of_ready {ready : List SocketAddr} {pc : ReadyPc}
    (h : HasRanges { s with ready := ready, pc := pc } u l) : HasRanges s u l := by
  cases h with
  | registered h => exact .registered h
  | read ht hu => exact .read ht hu

/-- The ranges that a task is about to register are those it has read, and its own. -/
theorem hasRanges_of_set {k : ℕ} {t : SendTask} {pc' : SendPc}
    (hread : ∀ {l}, pc' = .write (some l) → HasRanges s t.sender.uuid l)
    (h : HasRanges { s with sends := s.sends.set k (t, pc') } u l) : HasRanges s u l := by
  cases h with
  | registered h => exact .registered h
  | read ht hu =>
    obtain ⟨j, hj⟩ := List.mem_iff_getElem?.1 ht
    rcases getElem?_set_cases hj with ⟨-, he⟩ | ⟨-, hj⟩
    · obtain ⟨rfl, hpc'⟩ := Prod.mk.inj he
      exact hu ▸ hread hpc'.symm
    · exact .read (List.mem_of_getElem? hj) hu

/-- A task that was spawned has read no ranges. -/
theorem hasRanges_of_allocated {nonce : UInt64} {pc : ReadyPc} {t : SendTask}
    (h : HasRanges { s with mining.mem.nonce := nonce, pc := pc, sends := s.sends ++ [(t, .send)] } u l) :
    HasRanges s u l := by
  cases h with
  | registered h => exact .registered h
  | read ht hu =>
    rcases List.mem_append.1 ht with ht | ht
    · exact .read ht hu
    · cases List.mem_singleton.1 ht

end Ranges

/-- Nothing is claimed that was not, and no task is pending that was not. -/
private theorem Owned.of_less (hs : s.Owned) (hsequence : s'.mining.InSequence)
    (hsends : ∀ {k : ℕ} {t : SendTask} {pc : SendPc}, s'.sends[k]? = some (t, pc) → pc ≠ .done →
      ∃ pc₀, s.sends[k]? = some (t, pc₀) ∧ pc₀ ≠ .done)
    (hranges : ∀ {u l}, HasRanges s' u l → HasRanges s u l) (hclaims : ∀ {u j}, Claims s' u j → Claims s u j)
    (haligned : 40000000 ∣ s'.mining.mem.nonce.toNat)
    (hbelow : s'.mining.resetting = false → ∀ {u j}, Claims s' u j → 40000000 * j < s'.mining.mem.nonce.toNat)
    (hzero : s'.mining.resetting = true → s'.mining.mem.nonce = 0)
    (hcleared : s'.mining.opLists.any emptying = true →
      s'.mining.mem.clientNonceRanges = ∅ ∧ ∀ x ∈ s'.sends, x.2 = .done) : s'.Owned where
  sequence := hsequence
  aligned := haligned
  isBlock h := hs.isBlock (hranges h)
  pending ht hpc := by
    obtain ⟨k, hk⟩ := List.mem_iff_getElem?.1 ht
    obtain ⟨pc₀, hk₀, hpc₀⟩ := hsends hk hpc
    exact hs.pending (List.mem_of_getElem? hk₀) hpc₀
  one h h' := hs.one (hclaims h) (hclaims h')
  nodup h := hs.nodup (hranges h)
  fresh ht hpc h := by
    obtain ⟨k, hk⟩ := List.mem_iff_getElem?.1 ht
    obtain ⟨pc₀, hk₀, hpc₀⟩ := hsends hk hpc
    exact hs.fresh (List.mem_of_getElem? hk₀) hpc₀ (hranges h)
  distinct hk hk' hpc hpc' hne := by
    obtain ⟨pc₀, hk₀, hpc₀⟩ := hsends hk hpc
    obtain ⟨pc₁, hk₁, hpc₁⟩ := hsends hk' hpc'
    exact hs.distinct hk₀ hk₁ hpc₀ hpc₁ hne
  below := hbelow
  zero := hzero
  cleared := hcleared

/-- A pass goes on, or a client is ready. -/
private theorem Owned.ready (hs : s.Owned) {ready : List SocketAddr} {pc : ReadyPc} :
    Owned { s with ready := ready, pc := pc } := by
  have hclaims : ∀ {u j}, Claims { s with ready := ready, pc := pc } u j → Claims s u j := by
    intro u j h
    cases h with
    | range h hr hj => exact .range (hasRanges_of_ready h) hr hj
    | pending ht hpc hu hj => exact .pending ht hpc hu hj
    | checked h hpast hu hj => exact .checked h hpast hu hj
    | entry h hj => exact .entry h hj
  exact hs.of_less hs.sequence (fun {k t pc} hk hpc => ⟨pc, hk, hpc⟩) hasRanges_of_ready hclaims hs.aligned
    (fun hreset {u j} h => hs.below hreset (hclaims h)) hs.zero hs.cleared

/-- A task goes on from a range it has not registered. -/
private theorem Owned.move (hs : s.Owned) {k : ℕ} {t : SendTask} {pc pc' : SendPc} (hk : s.sends[k]? = some (t, pc))
    (hpc : pc ≠ .done) (hread : ∀ {l}, pc' = .write (some l) → HasRanges s t.sender.uuid l) :
    Owned { s with sends := s.sends.set k (t, pc') } := by
  have hranges : ∀ {u l}, HasRanges { s with sends := s.sends.set k (t, pc') } u l → HasRanges s u l :=
    hasRanges_of_set hread
  have hsends : ∀ {j : ℕ} {t₁ : SendTask} {pc₁ : SendPc}, (s.sends.set k (t, pc'))[j]? = some (t₁, pc₁) →
      pc₁ ≠ .done → ∃ pc₀, s.sends[j]? = some (t₁, pc₀) ∧ pc₀ ≠ .done := by
    intro j t₁ pc₁ hj hpc₁
    rcases getElem?_set_cases hj with ⟨rfl, he⟩ | ⟨-, hj⟩
    · obtain ⟨rfl, -⟩ := Prod.mk.inj he
      exact ⟨pc, hk, hpc⟩
    · exact ⟨pc₁, hj, hpc₁⟩
  have hclaims : ∀ {u j}, Claims { s with sends := s.sends.set k (t, pc') } u j → Claims s u j := by
    intro u j h
    cases h with
    | range h hr hj => exact .range (hranges h) hr hj
    | pending ht hpc₁ hu hj =>
      obtain ⟨i, hi⟩ := List.mem_iff_getElem?.1 ht
      obtain ⟨pc₀, hi₀, hpc₀⟩ := hsends hi hpc₁
      exact .pending (List.mem_of_getElem? hi₀) hpc₀ hu hj
    | checked h hpast hu hj => exact .checked h hpast hu hj
    | entry h hj => exact .entry h hj
  refine hs.of_less hs.sequence hsends hranges hclaims hs.aligned (fun hreset {u j} h => hs.below hreset (hclaims h))
    hs.zero fun hempty => ?_
  exact absurd ((hs.cleared hempty).2 _ (List.mem_of_getElem? hk)) hpc

theorem hasRanges_of_mining {b : Mining.Action} {mining : Mining}
    (hb : ∀ nonce ranges, b ≠ .nonceRanges nonce ranges) (h : Mining.Step su s.mining b mining) {u : Uuid}
    {l : List NonceRange} (hr : HasRanges { s with mining := mining } u l) : HasRanges s u l := by
  cases hr with
  | registered hr =>
    have hr : mining.mem.clientNonceRanges.lookup u = some l := hr
    rcases h.ranges hb with ⟨-, he⟩ | ⟨-, he⟩
    · rw [he] at hr
      cases hr
    · rw [he] at hr
      exact .registered hr
  | read ht hu => exact .read ht hu

/-- A handler that is past its check has found its nonce in a registered range, or was past it before. -/
private theorem claims_of_handler {msg : BestSolution} {pc pc' : HandlerPc} {m : EpochMemory}
    (hs : ∀ {u l}, s.mining.mem.clientNonceRanges.lookup u = some l → ∀ r ∈ l, IsBlock r)
    (hmem : (msg, pc) ∈ s.mining.handlers) (h : HandlerStep su.drillx msg s.mining.mem pc m pc')
    (hpast : pc'.pastRanges = true) : Claims s msg.uuid (nonceBlock msg.solution.nonce) := by
  cases h with
  | @ranges nonceRanges hlookup hin =>
    obtain ⟨r, hr, hcontains⟩ := List.any_eq_true.1 hin
    exact .range (.registered hlookup) hr ((hs hlookup r hr).block_of_contains hcontains).symm
  | socket | proof | read => exact .checked hmem rfl rfl rfl
  | _ => cases hpast

/-- What the mining tasks do adds no claim. -/
private theorem claims_of_mining (hs : s.Owned) {b : Mining.Action} {mining : Mining}
    (hb : ∀ nonce ranges, b ≠ .nonceRanges nonce ranges) (h : Mining.Step su s.mining b mining) {u : Uuid} {j : ℕ}
    (hclaim : Claims { s with mining := mining } u j) : Claims s u j := by
  cases hclaim with
  | range hr hmem hj => exact .range (hasRanges_of_mining hb h hr) hmem hj
  | pending ht hpc hu hj => exact .pending ht hpc hu hj
  | @checked msg pc hmem hpast hu hj =>
    rcases h.mem_handlers hmem with hmem | ⟨msg', -, he⟩ | ⟨k, pc₀, -, hk, hstep⟩
    · exact .checked hmem hpast hu hj
    · cases he
      cases hpast
    · subst hu hj
      exact claims_of_handler (fun h => hs.isBlock (.registered h)) (List.mem_of_getElem? hk) hstep hpast
  | @entry sub hsub hj =>
    rcases h.entry hsub with hsub | ⟨msg, minerId, validated, hmem, hu, rfl⟩
    · exact .entry hsub hj
    · exact .checked hmem rfl hu hj

/-- When the submissions are emptied, nothing is left of what was handed out. -/
private theorem no_claims (hs : s.Owned) {b : Mining.Action} {mining : Mining} (hC : Apart s (.mining b))
    (h : Mining.Step su s.mining b mining) {c : Option Challenge} (hop : s.mining.nextOp? b = some (.resetEpoch c))
    {u : Uuid} {j : ℕ} : ¬ Claims { s with mining := mining } u j := by
  obtain ⟨-, ops, hops, -⟩ := h.opLists_exec hop
  obtain ⟨hranges, hdone⟩ := hs.cleared (List.any_eq_true.2 ⟨_, hops, rfl⟩)
  obtain ⟨o, hmem, hhandlers⟩ := h.exec hop
  intro hclaim
  cases hclaim with
  | @range l r hr _ _ =>
    cases hr with
    | registered hr =>
      have hr : mining.mem.clientNonceRanges.lookup u = some l := hr
      have hsame : mining.mem.clientNonceRanges = s.mining.mem.clientNonceRanges := by rw [hmem]; rfl
      rw [hsame, hranges] at hr
      cases hr
    | read ht _ => cases hdone _ ht
  | pending ht hpc _ _ => exact hpc (hdone _ ht)
  | @checked msg pc hmem' hpast _ _ =>
    have hmem' : (msg, pc) ∈ mining.handlers := hmem'
    rw [hhandlers] at hmem'
    have hnot := hC.2 (by rw [hop]; rfl) _ hmem'
    rw [hnot] at hpast
    cases hpast
  | @entry sub hsub _ =>
    have hsub : mining.mem.epochHashes.submissions.lookup u = some sub := hsub
    rw [hmem] at hsub
    cases hsub

/-! ### Steps -/

private theorem Owned.mining (hs : s.Owned) {b : Mining.Action} {mining : Mining}
    (hb : ∀ nonce ranges, b ≠ .nonceRanges nonce ranges) (hC : Apart s (.mining b))
    (h : Mining.Step su s.mining b mining) : Owned { s with mining := mining } := by
  refine hs.of_less (hs.sequence.step h) (fun {k t pc} hk hpc => ⟨pc, hk, hpc⟩) (hasRanges_of_mining hb h)
    (claims_of_mining hs hb h) ?_ ?_ ?_ ?_
  · show 40000000 ∣ mining.mem.nonce.toNat
    rcases h.counter hb with ⟨-, he⟩ | ⟨-, he⟩
    · rw [he]
      exact dvd_zero _
    · rw [he]
      exact hs.aligned
  · intro hreset u j hclaim
    show 40000000 * j < mining.mem.nonce.toNat
    cases hbefore : s.mining.resetting with
    | false =>
      rcases h.counter hb with ⟨hop, -⟩ | ⟨-, he⟩
      · exact absurd (h.resetting_of_exec hs.sequence (Or.inl hop)) (by simpa using hreset)
      · rw [he]
        exact hs.below hbefore (claims_of_mining hs hb h hclaim)
    | true =>
      rcases h.resetting_kept hs.sequence hbefore with hkept | ⟨c, hop⟩
      · exact absurd hkept (by simpa using hreset)
      · exact absurd hclaim (no_claims hs hC h hop)
  · intro hreset
    show mining.mem.nonce = 0
    rcases h.counter hb with ⟨-, he⟩ | ⟨hop, he⟩
    · exact he
    · rw [he]
      exact hs.zero ((h.resetting hs.sequence hreset).resolve_right hop)
  · intro hempty
    show mining.mem.clientNonceRanges = ∅ ∧ ∀ x ∈ s.sends, x.2 = .done
    rcases h.ranges hb with ⟨hop, he⟩ | ⟨hop, he⟩
    · exact ⟨he, hC.1 hop⟩
    · rw [he]
      exact hs.cleared ((h.emptying hs.sequence hempty).resolve_right hop)

section Taken

variable {nonce : UInt64} {t : SendTask} {pc : ReadyPc} {u : Uuid}

/-- A range is taken from the counter, and a task spawned with it. -/
private def taken (s : Assigning) (nonce : UInt64) (t : SendTask) (pc : ReadyPc) : Assigning :=
  { s with
    mining.mem.nonce := nonce
    pc := pc
    sends := s.sends ++ [(t, .send)] }

private theorem mem_taken {x : SendTask × SendPc} (h : x ∈ (s.taken nonce t pc).sends) :
    x ∈ s.sends ∨ x = (t, .send) :=
  (List.mem_append.1 h).imp_right List.mem_singleton.1

private theorem HasRanges.of_taken {l : List NonceRange} (h : HasRanges (s.taken nonce t pc) u l) :
    HasRanges s u l :=
  hasRanges_of_allocated h

/-- Only the block that was taken is claimed anew. -/
private theorem Claims.of_taken {j : ℕ} (h : Claims (s.taken nonce t pc) u j) :
    Claims s u j ∨ u = t.sender.uuid ∧ j = t.msg.range.block := by
  cases h with
  | range h hr hj => exact Or.inl (.range h.of_taken hr hj)
  | pending h hpc hu hj =>
    rcases mem_taken h with h | he
    · exact Or.inl (.pending h hpc hu hj)
    · cases he
      exact Or.inr ⟨hu.symm, hj.symm⟩
  | checked h hpast hu hj => exact Or.inl (.checked h hpast hu hj)
  | entry h hj => exact Or.inl (.entry h hj)

/-- Nobody claims the block that begins at the counter. -/
private theorem Owned.not_claims (hs : s.Owned) (hreset : s.mining.resetting = false)
    (ht : t.msg.range.start = s.mining.mem.nonce) {j : ℕ} (h : Claims s u j) : j ≠ t.msg.range.block := by
  intro he
  have hbelow := hs.below hreset h
  obtain ⟨i, hi⟩ := hs.aligned
  have hdiv : t.msg.range.block = i := by
    rw [NonceRange.block, ht, nonceBlock, hi, Nat.mul_div_cancel_left _ (by omega)]
  omega

private theorem Owned.allocate (hs : s.Owned) (hreset : s.mining.resetting = false)
    (hnonce : nonce.toNat = s.mining.mem.nonce.toNat + 40000000) (ht : t.msg.range.start = s.mining.mem.nonce)
    (hblock : IsBlock t.msg.range) : (s.taken nonce t pc).Owned := by
  have hfresh : ∀ {u j}, Claims s u j → j ≠ t.msg.range.block := hs.not_claims hreset ht
  refine ⟨hs.sequence.mem _, ?_, fun h => hs.isBlock h.of_taken, ?_, ?_, fun h => hs.nodup h.of_taken, ?_, ?_, ?_, ?_, ?_⟩
  · show 40000000 ∣ nonce.toNat
    rw [hnonce]
    exact (Nat.dvd_add_self_right).2 hs.aligned
  · intro t₁ pc₁ h hpc
    rcases mem_taken h with h | he
    · exact hs.pending h hpc
    · cases he
      exact hblock
  · intro u u' j h h'
    rcases h.of_taken with h | ⟨rfl, rfl⟩ <;> rcases h'.of_taken with h' | ⟨rfl, hj⟩
    · exact hs.one h h'
    · exact absurd hj (hfresh h)
    · exact absurd rfl (hfresh h')
    · rfl
  · intro t₁ pc₁ u l h hpc hl hmem
    rcases mem_taken h with h | he
    · exact hs.fresh h hpc hl.of_taken hmem
    · cases he
      obtain ⟨r, hr, hj⟩ := List.mem_map.1 hmem
      exact hfresh (.range hl.of_taken hr rfl) hj
  · intro k k' t₁ t₂ pc₁ pc₂ hk hk' hpc hpc' hne he
    rcases getElem?_concat_cases hk with hk | ⟨rfl, hx⟩ <;> rcases getElem?_concat_cases hk' with hk' | ⟨rfl, hx'⟩
    · exact hs.distinct hk hk' hpc hpc' hne he
    · cases hx'
      exact hfresh (.pending (List.mem_of_getElem? hk) hpc rfl rfl) he
    · cases hx
      exact hfresh (.pending (List.mem_of_getElem? hk') hpc' rfl rfl) he.symm
    · exact hne rfl
  · intro _ u j h
    show 40000000 * j < nonce.toNat
    rw [hnonce]
    rcases h.of_taken with h | ⟨-, rfl⟩
    · exact Nat.lt_add_right _ (hs.below hreset h)
    · have hnew : 40000000 * t.msg.range.block ≤ s.mining.mem.nonce.toNat := by
        rw [NonceRange.block, ht]
        exact Nat.mul_div_le _ _
      omega
  · intro h
    rw [show s.mining.resetting = true from h] at hreset
    cases hreset
  · intro h
    have hmid : s.mining.resetting = true := Mining.resetting_of_emptying h
    rw [hmid] at hreset
    cases hreset

end Taken

section Entered

variable {k : ℕ} {t : SendTask} {current : Option (List NonceRange)} {u : Uuid} {l : List NonceRange}

/-- A range is registered, behind those that the task has read. -/
private def entered (s : Assigning) (k : ℕ) (t : SendTask) (current : Option (List NonceRange)) : Assigning :=
  { s with
    mining.mem.clientNonceRanges :=
      s.mining.mem.clientNonceRanges.insert t.sender.uuid (current.getD [] ++ [t.msg.range])
    sends := s.sends.set k (t, .done) }

private theorem getElem?_entered {j : ℕ} {t₁ : SendTask} {pc₁ : SendPc}
    (h : (s.entered k t current).sends[j]? = some (t₁, pc₁)) (hpc₁ : pc₁ ≠ .done) :
    j ≠ k ∧ s.sends[j]? = some (t₁, pc₁) := by
  rcases getElem?_set_cases h with ⟨-, he⟩ | h
  · exact absurd (Prod.mk.inj he).2 hpc₁
  · exact h

private theorem mem_entered {t₁ : SendTask} {pc₁ : SendPc} (h : (t₁, pc₁) ∈ (s.entered k t current).sends)
    (hpc₁ : pc₁ ≠ .done) : ∃ j, j ≠ k ∧ s.sends[j]? = some (t₁, pc₁) := by
  obtain ⟨j, hj⟩ := List.mem_iff_getElem?.1 h
  exact ⟨j, getElem?_entered hj hpc₁⟩

private theorem HasRanges.of_entered (h : HasRanges (s.entered k t current) u l) :
    HasRanges s u l ∨ u = t.sender.uuid ∧ l = current.getD [] ++ [t.msg.range] := by
  cases h with
  | registered h =>
    rcases lookup_insert_cases h with ⟨rfl, rfl⟩ | ⟨-, h⟩
    · exact Or.inr ⟨rfl, rfl⟩
    · exact Or.inl (.registered h)
  | read ht hu =>
    obtain ⟨j, -, hj⟩ := mem_entered ht (by simp)
    exact Or.inl (.read (List.mem_of_getElem? hj) hu)

/-- What is registered is the range of the task, and those that it has read. -/
private theorem mem_registered (hk : s.sends[k]? = some (t, .write current)) {r : NonceRange}
    (hr : r ∈ current.getD [] ++ [t.msg.range]) :
    r = t.msg.range ∨ ∃ l, HasRanges s t.sender.uuid l ∧ r ∈ l := by
  rcases List.mem_append.1 hr with hr | hr
  · cases current with
    | none => cases hr
    | some l => exact Or.inr ⟨l, .read (List.mem_of_getElem? hk) rfl, hr⟩
  · exact Or.inl (List.mem_singleton.1 hr)

private theorem Claims.of_entered (hk : s.sends[k]? = some (t, .write current)) {j : ℕ}
    (h : Claims (s.entered k t current) u j) : Claims s u j := by
  cases h with
  | range h hr hj =>
    rcases h.of_entered with h | ⟨rfl, rfl⟩
    · exact .range h hr hj
    · rcases mem_registered hk hr with rfl | ⟨l₀, hl₀, hr₀⟩
      · exact .pending (List.mem_of_getElem? hk) (by simp) rfl hj
      · exact .range hl₀ hr₀ hj
  | pending ht hpc hu hj =>
    obtain ⟨i, -, hi⟩ := mem_entered ht hpc
    exact .pending (List.mem_of_getElem? hi) hpc hu hj
  | checked h hpast hu hj => exact .checked h hpast hu hj
  | entry h hj => exact .entry h hj

private theorem Owned.write (hs : s.Owned) (hk : s.sends[k]? = some (t, .write current)) :
    (s.entered k t current).Owned := by
  have hmem : (t, .write current) ∈ s.sends := List.mem_of_getElem? hk
  have hpending : SendPc.write current ≠ .done := by simp
  refine ⟨hs.sequence.mem _, hs.aligned, ?_, ?_, fun h h' => hs.one (h.of_entered hk) (h'.of_entered hk), ?_, ?_, ?_,
    fun h {u j} hj => hs.below h (hj.of_entered hk), hs.zero, ?_⟩
  · intro u l h r hr
    rcases h.of_entered with h | ⟨-, rfl⟩
    · exact hs.isBlock h r hr
    · rcases mem_registered hk hr with rfl | ⟨l₀, hl₀, hr₀⟩
      · exact hs.pending hmem hpending
      · exact hs.isBlock hl₀ r hr₀
  · intro t₁ pc₁ h hpc₁
    obtain ⟨i, -, hi⟩ := mem_entered h hpc₁
    exact hs.pending (List.mem_of_getElem? hi) hpc₁
  · intro u l h
    rcases h.of_entered with h | ⟨-, rfl⟩
    · exact hs.nodup h
    · cases current with
      | none => simp
      | some l₀ =>
        have hl₀ : HasRanges s t.sender.uuid l₀ := .read hmem rfl
        rw [Option.getD_some, List.map_append, List.map_singleton, List.nodup_append]
        refine ⟨hs.nodup hl₀, List.nodup_singleton _, fun j hj j' hj' he => ?_⟩
        rw [he, List.mem_singleton.1 hj'] at hj
        exact hs.fresh hmem hpending hl₀ hj
  · intro t₁ pc₁ u l h hpc₁ hl hj
    obtain ⟨i, hik, hi⟩ := mem_entered h hpc₁
    rcases hl.of_entered with hl | ⟨-, rfl⟩
    · exact hs.fresh (List.mem_of_getElem? hi) hpc₁ hl hj
    · obtain ⟨r, hr, hj⟩ := List.mem_map.1 hj
      rcases mem_registered hk hr with rfl | ⟨l₀, hl₀, hr₀⟩
      · exact hs.distinct hi hk hpc₁ hpending hik hj.symm
      · exact hs.fresh (List.mem_of_getElem? hi) hpc₁ hl₀ (List.mem_map.2 ⟨r, hr₀, hj⟩)
  · intro i i' t₁ t₂ pc₁ pc₂ hi hi' hpc₁ hpc₂
    exact hs.distinct (getElem?_entered hi hpc₁).2 (getElem?_entered hi' hpc₂).2 hpc₁ hpc₂
  · intro h
    exact absurd ((hs.cleared h).2 _ hmem) hpending

end Entered

theorem Owned.step (hs : s.Owned) (hcounter : CounterBelow s a) (hC : Apart s a) (h : Step su s a s') : s'.Owned := by
  cases h with
  | mining hb hmining => exact hs.mining hb hC (Mining.step_sound hmining)
  | ready | move => exact hs.ready
  | @allocate client sender clients challenge cutoff hpc =>
    have hallocates : s.pc.allocates = true := by rw [hpc]; rfl
    obtain ⟨hblock, hnonce⟩ := isBlock_of_counter hs.aligned (hcounter hallocates)
    exact hs.allocate (t := ⟨sender, ⟨challenge, .ofInt cutoff, _, _⟩⟩) (hC hallocates) hnonce rfl hblock
  | send hk => exact hs.move hk (by simp) (fun h => by cases h)
  | read hk => exact hs.move hk (by simp) fun h => .registered (SendPc.write.inj h)
  | write hk => exact hs.write hk

theorem start_owned (proof : Proof) (db : Database) : (start proof db).Owned := by
  have hranges : ∀ {u l}, ¬ HasRanges (start proof db) u l := by
    intro u l h
    cases h with
    | registered h => cases h
    | read h => cases h
  have hclaims : ∀ {u j}, ¬ Claims (start proof db) u j := by
    intro u j h
    cases h with
    | range h => exact hranges h
    | pending h => cases h
    | checked h => cases h
    | entry h => cases h
  refine ⟨?_, dvd_zero _, fun h => absurd h hranges, fun h => (by cases h), fun h => absurd h hclaims,
    fun h => absurd h hranges, fun h => (by cases h), fun h => (by cases h), fun _ {u j} h => absurd h hclaims,
    fun h => (by cases h), fun h => (by cases h)⟩
  intro ops hops
  rw [List.mem_singleton.1 hops]
  trivial

/-- In every run in which the counter does not run over and resets meet no assignment and no answer, no nonce is in two
of the registered ranges, and no two clients have an entry with one nonce. -/
theorem nonces_apart (su : MiningSetup) (proof : Proof) (db : Database) {as : List Action}
    (hcounter : Along (step su) CounterBelow (start proof db) as) (hC : Along (step su) Apart (start proof db) as)
    (h : run (step su) (start proof db) as = some s') :
    s'.mining.mem.RangesDisjoint ∧ s'.mining.mem.epochHashes.NoncesApart := by
  have hs : s'.Owned :=
    run_invariant (fun hs hC hstep => Owned.step hs hC.1 hC.2 (step_sound hstep)) (start_owned proof db)
      (hcounter.and hC) h
  exact ⟨hs.rangesDisjoint, hs.noncesApart⟩

/-- A solution of the connection 2 with the first nonce of the second range, valid for the challenge `filled b`. -/
def exampleSecond (b : UInt8) : BestSolution where
  addr := .v4 0 2
  solution := ⟨List.Vector.replicate 16 b, ⟨[0, 90, 98, 2, 0, 0, 0, 0], rfl⟩⟩
  uuid := 2

/-- Both clients get ranges, by the tasks `i` and `i + 1`, and answer. -/
def bothAnswer (i : ℕ) (b : UInt8) : List Action :=
  assign i (.v4 0 1) ++ assign (i + 1) (.v4 0 2) ++ answer i (exampleBest 1 b) ++ answer (i + 1) (exampleSecond b)

/-- Two epochs, with the watcher's reset between them. -/
def twoEpochs : List Action := connectTwo ++ bothAnswer 0 1 ++ nextEpoch ++ bothAnswer 2 2

theorem nonces_apart_example :
    ∃ s', run (step exampleMiningSetup) exampleStart twoEpochs = some s' ∧
      (s'.mining.mem.clientNonceRanges.lookup 1 = some [⟨0, 39999999⟩] ∧
        s'.mining.mem.clientNonceRanges.lookup 2 = some [⟨40000000, 79999999⟩] ∧
        s'.mining.mem.epochHashes.challenge = filled 2 ∧ s'.mining.mem.epochHashes.submissions.keys = [2, 1]) ∧
      s'.mining.mem.RangesDisjoint ∧ s'.mining.mem.epochHashes.NoncesApart := by
  have hrun : ∃ s', run (step exampleMiningSetup) exampleStart twoEpochs = some s' ∧
      s'.mining.mem.clientNonceRanges.lookup 1 = some [⟨0, 39999999⟩] ∧
      s'.mining.mem.clientNonceRanges.lookup 2 = some [⟨40000000, 79999999⟩] ∧
      s'.mining.mem.epochHashes.challenge = filled 2 ∧ s'.mining.mem.epochHashes.submissions.keys = [2, 1] :=
    exists_of_run (by decide +kernel)
  obtain ⟨s', h, hends⟩ := hrun
  have hcounter : Along (step exampleMiningSetup) CounterBelow exampleStart twoEpochs := by decide +kernel
  have happart : Along (step exampleMiningSetup) Apart exampleStart twoEpochs := by decide +kernel
  exact ⟨s', h, hends, nonces_apart exampleMiningSetup _ _ hcounter happart h⟩

/-- The main loop finds that its solution is stale, and discards the submissions. -/
def discard (p : Proof) : List Action :=
  List.map .mining (Mining.takeSnapshot ++ [.main (.proofAndConfig (some p)), .main .go] ++
    List.replicate 4 (.main (.op .executed)) ++ [.main .go])

/-- The message for connection 1 is sent slowly: its range is registered after a reset, when connection 2 has the same
one, and both answer with one nonce. -/
def slowSend : List Action :=
  connectTwo ++ startPass (.v4 0 1) ++ takeRange ++ endPass ++ assign 1 (.v4 0 2) ++ answer 0 (exampleSecond 1) ++
    List.replicate 60 (.mining .tick) ++ discard ⟨filled 2, 60⟩ ++ register 0 ++ assign 2 (.v4 0 2) ++
    answer 1 (exampleBest 1 2) ++ answer 2 (exampleBest 2 2)

theorem nonces_meet :
    Along (step exampleMiningSetup) CounterBelow exampleStart slowSend ∧
      ∃ s', run (step exampleMiningSetup) exampleStart slowSend = some s' ∧
        s'.mining.mem.clientNonceRanges.lookup 1 = some [⟨0, 39999999⟩] ∧
        s'.mining.mem.clientNonceRanges.lookup 2 = some [⟨0, 39999999⟩] ∧
        ¬ s'.mining.mem.RangesDisjoint ∧ ¬ s'.mining.mem.epochHashes.NoncesApart := by
  refine ⟨by decide +kernel, ?_⟩
  obtain ⟨s', h, h₁, h₂, hn₁, hn₂⟩ : ∃ s', run (step exampleMiningSetup) exampleStart slowSend = some s' ∧
      s'.mining.mem.clientNonceRanges.lookup 1 = some [⟨0, 39999999⟩] ∧
      s'.mining.mem.clientNonceRanges.lookup 2 = some [⟨0, 39999999⟩] ∧
      (s'.mining.mem.epochHashes.submissions.lookup 1).map (fun sub => sub.suppliedNonce) = some 0 ∧
      (s'.mining.mem.epochHashes.submissions.lookup 2).map (fun sub => sub.suppliedNonce) = some 0 :=
    exists_of_run (by decide +kernel)
  refine ⟨s', h, h₁, h₂, fun hdisjoint => ?_, fun happart => ?_⟩
  · have hne : ((1 : Uuid), 0) ≠ ((2 : Uuid), 0) := by decide
    have hzero := hdisjoint h₁ h₂ rfl rfl hne 0 (by decide)
    exact absurd hzero (by decide)
  · obtain ⟨sub, hsub, hnonce⟩ := Option.map_eq_some_iff.1 hn₁
    obtain ⟨sub', hsub', hnonce'⟩ := Option.map_eq_some_iff.1 hn₂
    exact happart hsub hsub' (by decide) (hnonce.trans hnonce'.symm)

end Assigning

end BitzPool
