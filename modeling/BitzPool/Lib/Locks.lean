import Mathlib.Data.List.Nodup
import Mathlib.Logic.Function.Basic
import BitzPool.Lib.Run

/-!
# Tasks with fair locks

Tasks run programs that acquire and release locks and wait for other events in between; a program says nothing of the data,
so its choices are free.  A lock is shared or exclusive, and fair: whoever asks for it joins the end of its queue, and only
the head of a queue is let in, so a reader does not overtake a writer.

`Queued` is the invariant of the queues.  A holder that waits for an event, or for a lock of a task that does, starves all
who stand behind a writer as long as the event does not come: nobody from the writer on leaves the queue, and all who ask for
the lock join it (`jam_run`).
-/

namespace Locks

open Transition

universe u

inductive Mode
  | shared
  | exclusive
  deriving DecidableEq

/-- Programs over locks `L` and events `E`. -/
inductive Prog (L E : Type u)
  | skip
  | acquire (l : L) (m : Mode)
  | release (l : L)
  | wait (e : E)
  | seq (p q : Prog L E)
  | alt (p q : Prog L E)
  /-- any number of times -/
  | loop (p : Prog L E)
  | rep (n : ℕ) (p : Prog L E)
  deriving DecidableEq

/-- One after another. -/
def Prog.block {L E : Type u} (ps : List (Prog L E)) : Prog L E := ps.foldr .seq .skip

/-- A task: the locks it has, the one it stands in the queue for, and what it has still to do. -/
structure Task (L E : Type u) where
  held : List (L × Mode)
  pending : Option (L × Mode)
  todo : List (Prog L E)
  deriving DecidableEq

structure State (L E : Type u) where
  tasks : List (Task L E)
  /-- the tasks that ask for a lock, by number, the first one in front -/
  queue : L → List ℕ

variable {L E : Type u}

/-- The next program, unless the task stands in a queue. -/
def Task.next? (t : Task L E) : Option (Prog L E × List (Prog L E)) :=
  match t.pending, t.todo with
  | none, p :: k => some (p, k)
  | _, _ => none

/-- The event a task waits for. -/
def Task.waits? (t : Task L E) : Option E :=
  match t.next? with
  | some (.wait e, _) => some e
  | _ => none

theorem Task.next?_eq_some {t : Task L E} {p : Prog L E} {k : List (Prog L E)} :
    t.next? = some (p, k) ↔ t.pending = none ∧ t.todo = p :: k := by
  unfold next?
  split
  · next p' k' hp hk =>
    rw [hp, hk]
    simp
  · next h =>
    constructor
    · intro he
      cases he
    · rintro ⟨hp, hk⟩
      exact absurd hk (h p k hp)

section Steps

variable [DecidableEq L]

/-- A step of a task by itself; `b` is its choice. -/
def Task.go (t : Task L E) (b : Bool) : Option (Task L E) :=
  match t.next? with
  | some (.skip, k) => some { t with todo := k }
  | some (.release l, k) =>
    if l ∈ t.held.map Prod.fst then some { t with held := t.held.eraseP (·.1 = l), todo := k } else none
  | some (.seq p q, k) => some { t with todo := p :: q :: k }
  | some (.alt p q, k) => some { t with todo := (if b then p else q) :: k }
  | some (.loop p, k) => some { t with todo := if b then p :: .loop p :: k else k }
  | some (.rep 0 _, k) => some { t with todo := k }
  | some (.rep (n + 1) p, k) => some { t with todo := p :: .rep n p :: k }
  | _ => none

namespace State

inductive Action (L E : Type u)
  | spawn (p : Prog L E)
  | go (i : ℕ) (b : Bool)
  | request (i : ℕ)
  | grant (l : L)
  | wake (i : ℕ)
  | stop (i : ℕ)
  deriving DecidableEq

/-- No task has the lock, or all have it shared and it is to be shared. -/
def Free (s : State L E) (l : L) (m : Mode) : Prop :=
  ∀ t ∈ s.tasks, ∀ h ∈ t.held, h.1 = l → m = .shared ∧ h.2 = .shared

instance (s : State L E) (l : L) (m : Mode) : Decidable (s.Free l m) :=
  inferInstanceAs (Decidable (∀ t ∈ s.tasks, ∀ h ∈ t.held, h.1 = l → m = .shared ∧ h.2 = .shared))

def stepGo (s : State L E) (i : ℕ) (b : Bool) : Option (State L E) := do
  let t ← s.tasks[i]?
  let t' ← t.go b
  return { s with tasks := s.tasks.set i t' }

def stepRequest (s : State L E) (i : ℕ) : Option (State L E) := do
  let t ← s.tasks[i]?
  match t.next? with
  | some (.acquire l m, k) => some {
      tasks := s.tasks.set i { t with pending := some (l, m), todo := k }
      queue := Function.update s.queue l (s.queue l ++ [i]) }
  | _ => none

def stepGrant (s : State L E) (l : L) : Option (State L E) :=
  match s.queue l with
  | [] => none
  | i :: rest => do
    let t ← s.tasks[i]?
    let (l', m) ← t.pending
    if s.Free l' m then some {
      tasks := s.tasks.set i { t with held := (l', m) :: t.held, pending := none }
      queue := Function.update s.queue l rest }
    else none

def stepWake (s : State L E) (i : ℕ) : Option (State L E) := do
  let t ← s.tasks[i]?
  match t.next? with
  | some (.wait _, k) => some { s with tasks := s.tasks.set i { t with todo := k } }
  | _ => none

/-- A task that ends early, a panic say, gives back what it has. -/
def stepStop (s : State L E) (i : ℕ) : Option (State L E) := do
  let t ← s.tasks[i]?
  if t.pending.isNone then some { s with tasks := s.tasks.set i ⟨[], none, []⟩ } else none

def step (s : State L E) : Action L E → Option (State L E)
  | .spawn p => some { s with tasks := s.tasks ++ [⟨[], none, [p]⟩] }
  | .go i b => s.stepGo i b
  | .request i => s.stepRequest i
  | .grant l => s.stepGrant l
  | .wake i => s.stepWake i
  | .stop i => s.stepStop i

def empty : State L E := ⟨[], fun _ => []⟩

end State

/-! ### What a step can do -/

/-- What a task does by itself, apart from asking for a lock. -/
inductive Task.Goes (t : Task L E) : Bool → Task L E → Prop
  | skip {b : Bool} {k : List (Prog L E)} : t.next? = some (.skip, k) → Goes t b { t with todo := k }
  | release {b : Bool} {l : L} {k : List (Prog L E)} :
      t.next? = some (.release l, k) → l ∈ t.held.map Prod.fst →
      Goes t b { t with held := t.held.eraseP (·.1 = l), todo := k }
  | seq {b : Bool} {p q : Prog L E} {k : List (Prog L E)} :
      t.next? = some (.seq p q, k) → Goes t b { t with todo := p :: q :: k }
  | alt {b : Bool} {p q : Prog L E} {k : List (Prog L E)} :
      t.next? = some (.alt p q, k) → Goes t b { t with todo := (if b then p else q) :: k }
  | again {p : Prog L E} {k : List (Prog L E)} :
      t.next? = some (.loop p, k) → Goes t true { t with todo := p :: .loop p :: k }
  | exit {p : Prog L E} {k : List (Prog L E)} : t.next? = some (.loop p, k) → Goes t false { t with todo := k }
  | done {b : Bool} {p : Prog L E} {k : List (Prog L E)} :
      t.next? = some (.rep 0 p, k) → Goes t b { t with todo := k }
  | rep {b : Bool} {n : ℕ} {p : Prog L E} {k : List (Prog L E)} :
      t.next? = some (.rep (n + 1) p, k) → Goes t b { t with todo := p :: .rep n p :: k }

theorem Task.go_sound {t t' : Task L E} {b : Bool} (h : t.go b = some t') : t.Goes b t' := by
  unfold go at h
  split at h
  · next k hk => cases h; exact .skip hk
  · next l k hk =>
    split at h
    · next hl => cases h; exact .release hk hl
    · cases h
  · next p q k hk => cases h; exact .seq hk
  · next p q k hk => cases h; exact .alt hk
  · next p k hk =>
    cases b <;> cases h
    · exact .exit hk
    · exact .again hk
  · next p k hk => cases h; exact .done hk
  · next n p k hk => cases h; exact .rep hk
  · cases h

namespace State

variable {s s' : State L E} {a : Action L E}

inductive Step (s : State L E) : Action L E → State L E → Prop
  | spawn {p : Prog L E} : Step s (.spawn p) { s with tasks := s.tasks ++ [⟨[], none, [p]⟩] }
  | go {i : ℕ} {b : Bool} {t t' : Task L E} :
      s.tasks[i]? = some t → t.Goes b t' → Step s (.go i b) { s with tasks := s.tasks.set i t' }
  | request {i : ℕ} {t : Task L E} {l : L} {m : Mode} {k : List (Prog L E)} :
      s.tasks[i]? = some t → t.next? = some (.acquire l m, k) →
      Step s (.request i) {
        tasks := s.tasks.set i { t with pending := some (l, m), todo := k }
        queue := Function.update s.queue l (s.queue l ++ [i]) }
  | grant {l l' : L} {i : ℕ} {rest : List ℕ} {t : Task L E} {m : Mode} :
      s.queue l = i :: rest → s.tasks[i]? = some t → t.pending = some (l', m) → s.Free l' m →
      Step s (.grant l) {
        tasks := s.tasks.set i { t with held := (l', m) :: t.held, pending := none }
        queue := Function.update s.queue l rest }
  | wake {i : ℕ} {t : Task L E} {e : E} {k : List (Prog L E)} :
      s.tasks[i]? = some t → t.next? = some (.wait e, k) →
      Step s (.wake i) { s with tasks := s.tasks.set i { t with todo := k } }
  | stop {i : ℕ} {t : Task L E} :
      s.tasks[i]? = some t → t.pending = none → Step s (.stop i) { s with tasks := s.tasks.set i ⟨[], none, []⟩ }

theorem step_sound (h : step s a = some s') : Step s a s' := by
  cases a with
  | spawn p => cases h; exact .spawn
  | go i b =>
    simp only [step, stepGo, Option.bind_eq_bind, Option.bind_eq_some_iff, Option.pure_def, Option.some.injEq] at h
    obtain ⟨t, ht, t', hgo, rfl⟩ := h
    exact .go ht (Task.go_sound hgo)
  | request i =>
    simp only [step, stepRequest, Option.bind_eq_bind, Option.bind_eq_some_iff] at h
    obtain ⟨t, ht, h⟩ := h
    split at h
    · next l m k hk => cases h; exact .request ht hk
    · cases h
  | grant l =>
    simp only [step, stepGrant] at h
    split at h
    · cases h
    · next i rest hq =>
      simp only [Option.bind_eq_bind, Option.bind_eq_some_iff] at h
      obtain ⟨t, ht, ⟨l', m⟩, hp, h⟩ := h
      split at h
      · next hfree => cases h; exact .grant hq ht hp hfree
      · cases h
  | wake i =>
    simp only [step, stepWake, Option.bind_eq_bind, Option.bind_eq_some_iff] at h
    obtain ⟨t, ht, h⟩ := h
    split at h
    · next e k hk => cases h; exact .wake ht hk
    · cases h
  | stop i =>
    simp only [step, stepStop, Option.bind_eq_bind, Option.bind_eq_some_iff] at h
    obtain ⟨t, ht, h⟩ := h
    split at h
    · next hp => cases h; exact .stop ht (Option.isNone_iff_eq_none.1 hp)
    · cases h

end State

theorem Task.Goes.pending {t t' : Task L E} {b : Bool} (h : t.Goes b t') : t'.pending = t.pending := by
  cases h <;> rfl

/-- A task goes on by itself: it stands in no queue, and waits for nothing. -/
private theorem Task.Goes.next_of {t t' : Task L E} {b : Bool} (h : t.Goes b t') :
    ∃ p k, t.next? = some (p, k) ∧ ∀ e, p ≠ .wait e := by
  cases h with
  | skip hk | release hk _ | seq hk | alt hk | again hk | exit hk | done hk | rep hk =>
    exact ⟨_, _, hk, fun e he => by cases he⟩

end Steps

/-! ### The queues -/

namespace State

/-- What a task stands in the queue for. -/
def pending? (s : State L E) (i : ℕ) : Option (L × Mode) := s.tasks[i]?.bind Task.pending

/-- The queues have those that stand in them, once. -/
structure Queued (s : State L E) : Prop where
  queue : ∀ l i, i ∈ s.queue l ↔ ∃ m, s.pending? i = some (l, m)
  nodup : ∀ l, (s.queue l).Nodup

variable {s s' : State L E} {a : Action L E}

theorem pending?_eq {i : ℕ} {t : Task L E} (h : s.tasks[i]? = some t) : s.pending? i = t.pending := by
  rw [pending?, h]
  rfl

/-- Only the task that takes a step may stand in a queue, or leave one. -/
theorem pending?_set {i : ℕ} {t t' : Task L E} (h : s.tasks[i]? = some t) (queue : L → List ℕ) (j : ℕ) :
    (State.mk (s.tasks.set i t') queue).pending? j = if j = i then t'.pending else s.pending? j := by
  have hi : i < s.tasks.length := (List.getElem?_eq_some_iff.1 h).1
  rw [pending?, pending?]
  by_cases hij : j = i
  · subst hij
    rw [if_pos rfl, List.getElem?_set_self hi]
    rfl
  · rw [if_neg hij, List.getElem?_set_ne (Ne.symm hij)]

theorem pending?_spawn (p : Prog L E) (j : ℕ) :
    (State.mk (s.tasks ++ [⟨[], none, [p]⟩]) s.queue).pending? j = s.pending? j := by
  rw [pending?, pending?]
  by_cases hj : j < s.tasks.length
  · rw [List.getElem?_append_left hj]
  · have hj : s.tasks.length ≤ j := Nat.le_of_not_lt hj
    rw [List.getElem?_append_right hj, List.getElem?_eq_none hj]
    cases j - s.tasks.length with
    | zero => rfl
    | succ n => rfl

theorem Queued.empty : (empty : State L E).Queued where
  queue l i := by simp [State.empty, pending?]
  nodup l := List.nodup_nil

/-- A task takes a step, and the queues stay: it stands in them as before. -/
private theorem Queued.set (hs : s.Queued) {i : ℕ} {t t' : Task L E} (ht : s.tasks[i]? = some t)
    (hpending : t'.pending = t.pending) : (State.mk (s.tasks.set i t') s.queue).Queued where
  queue l j := by
    have hj : (if j = i then t'.pending else s.pending? j) = s.pending? j := by
      by_cases hij : j = i
      · rw [if_pos hij, hij, hpending, pending?_eq ht]
      · rw [if_neg hij]
    rw [pending?_set ht, hj]
    exact hs.queue l j
  nodup := hs.nodup

private theorem Queued.spawn (hs : s.Queued) (p : Prog L E) :
    (State.mk (s.tasks ++ [⟨[], none, [p]⟩]) s.queue).Queued where
  queue l i := by
    rw [pending?_spawn]
    exact hs.queue l i
  nodup := hs.nodup

/-- Whoever is let in had asked for this lock. -/
theorem Queued.pending_head (hs : s.Queued) {l l' : L} {i : ℕ} {rest : List ℕ} {t : Task L E} {m : Mode}
    (hq : s.queue l = i :: rest) (ht : s.tasks[i]? = some t) (hp : t.pending = some (l', m)) : l' = l := by
  have hi : i ∈ s.queue l := by rw [hq]; exact List.mem_cons_self
  obtain ⟨m', hm'⟩ := (hs.queue l i).1 hi
  rw [pending?_eq ht, hp] at hm'
  cases hm'
  rfl

variable [DecidableEq L]

private theorem Queued.request (hs : s.Queued) {i : ℕ} {t : Task L E} {l : L} {m : Mode} {k : List (Prog L E)}
    (ht : s.tasks[i]? = some t) (hk : t.next? = some (.acquire l m, k)) :
    (State.mk (s.tasks.set i { t with pending := some (l, m), todo := k })
      (Function.update s.queue l (s.queue l ++ [i]))).Queued := by
  have hp : t.pending = none := (Task.next?_eq_some.1 hk).1
  have hnone : s.pending? i = none := (pending?_eq ht).trans hp
  have hout : ∀ l', i ∉ s.queue l' := fun l' hmem => by
    obtain ⟨m', hm'⟩ := (hs.queue l' i).1 hmem
    rw [hnone] at hm'
    cases hm'
  refine ⟨fun l' j => ?_, fun l' => ?_⟩
  · rw [pending?_set ht]
    change j ∈ Function.update s.queue l (s.queue l ++ [i]) l' ↔ _
    by_cases hl : l' = l
    · subst hl
      rw [Function.update_self, List.mem_append, List.mem_singleton, hs.queue]
      by_cases hij : j = i
      · simp [hij]
      · simp [hij]
    · rw [Function.update_of_ne hl, hs.queue]
      by_cases hij : j = i
      · simp [hij, hnone, Ne.symm hl]
      · simp [hij]
  · change (Function.update s.queue l (s.queue l ++ [i]) l').Nodup
    by_cases hl : l' = l
    · subst hl
      rw [Function.update_self]
      exact (hs.nodup l').append (List.nodup_singleton i) (List.disjoint_singleton.2 (hout l'))
    · rw [Function.update_of_ne hl]
      exact hs.nodup l'

private theorem Queued.grant (hs : s.Queued) {l : L} {i : ℕ} {rest : List ℕ} {t : Task L E} {m : Mode}
    (hq : s.queue l = i :: rest) (ht : s.tasks[i]? = some t) (hp : t.pending = some (l, m)) :
    (State.mk (s.tasks.set i { t with held := (l, m) :: t.held, pending := none })
      (Function.update s.queue l rest)).Queued := by
  have hsome : s.pending? i = some (l, m) := (pending?_eq ht).trans hp
  have hnodup : (i :: rest).Nodup := hq ▸ hs.nodup l
  refine ⟨fun l' j => ?_, fun l' => ?_⟩
  · rw [pending?_set ht]
    change j ∈ Function.update s.queue l rest l' ↔ _
    by_cases hl : l' = l
    · subst hl
      rw [Function.update_self]
      have hmem := hs.queue l' j
      rw [hq, List.mem_cons] at hmem
      by_cases hij : j = i
      · simp [hij, (List.nodup_cons.1 hnodup).1]
      · simpa [hij] using hmem
    · rw [Function.update_of_ne hl, hs.queue]
      by_cases hij : j = i
      · simp [hij, hsome, Ne.symm hl]
      · simp [hij]
  · change (Function.update s.queue l rest l').Nodup
    by_cases hl : l' = l
    · subst hl
      rw [Function.update_self]
      exact (List.nodup_cons.1 hnodup).2
    · rw [Function.update_of_ne hl]
      exact hs.nodup l'

theorem Queued.step (hs : s.Queued) (h : Step s a s') : s'.Queued := by
  cases h with
  | @spawn p => exact hs.spawn p
  | go ht hgo => exact hs.set ht hgo.pending
  | request ht hk => exact hs.request ht hk
  | grant hq ht hp hfree =>
    cases hs.pending_head hq ht hp
    exact hs.grant hq ht hp
  | wake ht hk => exact hs.set ht rfl
  | stop ht hp => exact hs.set ht hp.symm

theorem Queued.of_run (hs : s.Queued) {as : List (Action L E)} (h : run State.step s as = some s') : s'.Queued :=
  run_invariant (fun hs _ h => hs.step (step_sound h)) hs (Along.true State.step s as) h

/-! ### Behind a writer -/

/-- A task has the lock, and another one asks to have it alone. -/
structure Jammed (s : State L E) (l : L) (j i : ℕ) : Prop where
  holder : ∃ t, s.tasks[j]? = some t ∧ l ∈ t.held.map Prod.fst
  writer : s.pending? i = some (l, .exclusive)

def Waits (s : State L E) (j : ℕ) : Prop := ∃ t, s.tasks[j]? = some t ∧ t.waits?.isSome

/-- The task `x` waits for an event, and `j` goes on only after it: it is this task, or asks for a lock that `x` has, to have
it alone. -/
def Behind (s : State L E) (x j : ℕ) : Prop := s.Waits x ∧ (x = j ∨ ∃ l, s.Jammed l x j)

/-- The task `j` takes a step, or is let in. -/
def Moves (s : State L E) (j : ℕ) : Action L E → Prop
  | .spawn _ => False
  | .go i _ | .request i | .wake i | .stop i => i = j
  | .grant l => (s.queue l).head? = some j

/-- The queue from a task on. -/
def jam (s : State L E) (l : L) (i : ℕ) : List ℕ := (s.queue l).dropWhile (· ≠ i)

/-- The task that asks for the lock. -/
def asks (l : L) (s : State L E) : Action L E → List ℕ
  | .request i =>
    match s.tasks[i]?.bind Task.next? with
    | some (.acquire l' _, _) => if l' = l then [i] else []
    | _ => []
  | _ => []

/-- The tasks that ask for the lock during a run, in order. -/
def asked (l : L) : State L E → List (Action L E) → List ℕ
  | _, [] => []
  | s, a :: as =>
    s.asks l a ++
      match s.step a with
      | some s' => asked l s' as
      | none => []

private theorem dropWhile_append_of_mem {i : ℕ} {q : List ℕ} (hi : i ∈ q) (r : List ℕ) :
    (q ++ r).dropWhile (· ≠ i) = q.dropWhile (· ≠ i) ++ r := by
  induction q with
  | nil => cases hi
  | cons a q ih =>
    by_cases ha : a = i
    · simp [ha]
    · have hq : i ∈ q := (List.mem_cons.1 hi).resolve_left (Ne.symm ha)
      have := ih hq
      simpa [ha] using this

omit [DecidableEq L] in
/-- A third task takes a step. -/
private theorem Jammed.set {l : L} {i j i' : ℕ} (hj : s.Jammed l j i) (t' : Task L E) {t : Task L E}
    (ht : s.tasks[i']? = some t) (hij : i' ≠ j) (hii : i' ≠ i) (queue : L → List ℕ) :
    (State.mk (s.tasks.set i' t') queue).Jammed l j i ∧
      (State.mk (s.tasks.set i' t') queue).tasks[j]? = s.tasks[j]? := by
  have hset : (s.tasks.set i' t')[j]? = s.tasks[j]? := List.getElem?_set_ne hij
  refine ⟨⟨?_, ?_⟩, hset⟩
  · obtain ⟨u, hu, hmem⟩ := hj.holder
    exact ⟨u, hset.trans hu, hmem⟩
  · rw [pending?_set ht, if_neg (Ne.symm hii)]
    exact hj.writer

omit [DecidableEq L] in
/-- The writer is not let in while the other task has the lock. -/
private theorem Jammed.not_granted {l l' : L} {i j : ℕ} (hj : s.Jammed l j i) {t u : Task L E} {m : Mode}
    (hu : s.tasks[j]? = some u) (hmem : l ∈ u.held.map Prod.fst) (ht : s.tasks[i]? = some t)
    (hp : t.pending = some (l', m)) : ¬s.Free l' m := by
  intro hfree
  have hw := hj.writer
  rw [pending?_eq ht, hp] at hw
  cases hw
  obtain ⟨h, hh, rfl⟩ := List.mem_map.1 hmem
  cases (hfree u (List.mem_of_getElem? hu) h hh rfl).1

/-- A task that does not move stays as it is. -/
private theorem tasks_of_not_moves {x : ℕ} {u : Task L E} (hstill : ¬s.Moves x a) (h : Step s a s')
    (hu : s.tasks[x]? = some u) : s'.tasks[x]? = s.tasks[x]? := by
  cases h with
  | spawn => exact List.getElem?_append_left (List.getElem?_eq_some_iff.1 hu).1
  | grant hq =>
    refine List.getElem?_set_ne fun he => hstill ?_
    rw [Moves, hq, he]
    rfl
  | go | request | wake | stop => exact List.getElem?_set_ne hstill

/-- A step of other tasks than the holder leaves a jam as it is; only the one who asks for the lock joins it. -/
theorem Jammed.step (hs : s.Queued) {l : L} {i j : ℕ} (hj : s.Jammed l j i) (hstill : ¬s.Moves j a) (h : Step s a s') :
    s'.Jammed l j i ∧ s'.tasks[j]? = s.tasks[j]? ∧ s'.jam l i = s.jam l i ++ s.asks l a := by
  obtain ⟨u, hu, hmem⟩ := hj.holder
  -- the writer is not one that goes on by itself
  have hout : ∀ {i' : ℕ} {t : Task L E}, s.tasks[i']? = some t → t.pending = none → i' ≠ i := by
    rintro i' t ht hp rfl
    have hw := hj.writer
    rw [pending?_eq ht, hp] at hw
    cases hw
  cases h with
  | @spawn p =>
    have hlt : j < s.tasks.length := (List.getElem?_eq_some_iff.1 hu).1
    have hsame : (s.tasks ++ [⟨[], none, [p]⟩])[j]? = s.tasks[j]? := List.getElem?_append_left hlt
    refine ⟨⟨⟨u, hsame.trans hu, hmem⟩, ?_⟩, hsame, (List.append_nil _).symm⟩
    rw [pending?_spawn]
    exact hj.writer
  | @go i' b t t' ht hgo =>
    have hp : t.pending = none := by
      obtain ⟨p, k', hk, -⟩ := hgo.next_of
      exact (Task.next?_eq_some.1 hk).1
    obtain ⟨hjam, hsame⟩ := hj.set t' ht hstill (hout ht hp) s.queue
    exact ⟨hjam, hsame, (List.append_nil _).symm⟩
  | @request i' t l' m k' ht hk =>
    have hp : t.pending = none := (Task.next?_eq_some.1 hk).1
    obtain ⟨hjam, hsame⟩ := hj.set { t with pending := some (l', m), todo := k' } ht hstill (hout ht hp)
      (Function.update s.queue l' (s.queue l' ++ [i']))
    refine ⟨hjam, hsame, ?_⟩
    rw [jam, jam, asks, ht, Option.bind_some, hk]
    change (Function.update s.queue l' (s.queue l' ++ [i']) l).dropWhile _ = _ ++ if l' = l then [i'] else []
    by_cases hl : l' = l
    · subst hl
      have hi : i ∈ s.queue l' := (hs.queue l' i).2 ⟨.exclusive, hj.writer⟩
      rw [Function.update_self, if_pos rfl]
      exact dropWhile_append_of_mem hi [i']
    · rw [Function.update_of_ne (Ne.symm hl), if_neg hl, List.append_nil]
  | @grant l₁ l₂ i' rest t m hq ht hp hfree =>
    cases hs.pending_head hq ht hp
    have hij : i' ≠ j := by
      rintro rfl
      exact hstill (by rw [Moves, hq]; rfl)
    have hii : i' ≠ i := by
      rintro rfl
      exact hj.not_granted hu hmem ht hp hfree
    obtain ⟨hjam, hsame⟩ := hj.set { t with held := (l₁, m) :: t.held, pending := none } ht hij hii
      (Function.update s.queue l₁ rest)
    refine ⟨hjam, hsame, ?_⟩
    have hasks : s.asks l (.grant l₁) = [] := rfl
    rw [hasks, List.append_nil, jam, jam]
    change (Function.update s.queue l₁ rest l).dropWhile _ = _
    by_cases hl : l = l₁
    · subst hl
      rw [Function.update_self, hq]
      exact (List.dropWhile_cons_of_pos (by simpa using hii)).symm
    · rw [Function.update_of_ne hl]
  | @wake i' t e' k' ht hk =>
    have hp : t.pending = none := (Task.next?_eq_some.1 hk).1
    obtain ⟨hjam, hsame⟩ := hj.set { t with todo := k' } ht hstill (hout ht hp) s.queue
    exact ⟨hjam, hsame, (List.append_nil _).symm⟩
  | @stop i' t ht hp =>
    obtain ⟨hjam, hsame⟩ := hj.set ⟨[], none, []⟩ ht hstill (hout ht hp) s.queue
    exact ⟨hjam, hsame, (List.append_nil _).symm⟩

/-- A task that waits does not move before it is woken. -/
private theorem Waits.still {x : ℕ} (hx : s.Waits x) (hwake : a ≠ .wake x) (hstop : a ≠ .stop x)
    (h : Step s a s') : ¬s.Moves x a := by
  obtain ⟨u, hu, hwaits⟩ := hx
  obtain ⟨e, hwait⟩ := Option.isSome_iff_exists.1 hwaits
  obtain ⟨k, huk⟩ : ∃ k, u.next? = some (.wait e, k) := by
    rw [Task.waits?] at hwait
    split at hwait
    · next k hk => exact ⟨k, by rw [hk, Option.some.inj hwait]⟩
    · cases hwait
  intro hmoves
  cases h with
  | spawn => exact hmoves
  | go ht hgo =>
    cases hmoves
    rw [hu] at ht
    cases ht
    obtain ⟨p, k', hk, hne⟩ := hgo.next_of
    rw [huk] at hk
    cases hk
    exact hne e rfl
  | request ht hk =>
    cases hmoves
    rw [hu] at ht
    cases ht
    rw [huk] at hk
    cases hk
  | grant hq ht hp _ =>
    rw [Moves, hq, List.head?_cons, Option.some.injEq] at hmoves
    subst hmoves
    rw [hu] at ht
    cases ht
    rw [(Task.next?_eq_some.1 huk).1] at hp
    cases hp
  | wake => exact hwake (by rw [hmoves])
  | stop => exact hstop (by rw [hmoves])

/-- Nor does a task that asks for a lock which another one has. -/
private theorem Jammed.still {l : L} {x j : ℕ} (hj : s.Jammed l x j) (h : Step s a s') : ¬s.Moves j a := by
  obtain ⟨u, hu, hmem⟩ := hj.holder
  have hidle : ∀ {t : Task L E}, s.tasks[j]? = some t → t.pending ≠ none := by
    intro t ht hp
    have hw := hj.writer
    rw [pending?_eq ht, hp] at hw
    cases hw
  intro hmoves
  cases h with
  | spawn => exact hmoves
  | go ht hgo =>
    cases hmoves
    obtain ⟨p, k, hk, -⟩ := hgo.next_of
    exact hidle ht (Task.next?_eq_some.1 hk).1
  | request ht hk | wake ht hk =>
    cases hmoves
    exact hidle ht (Task.next?_eq_some.1 hk).1
  | grant hq ht hp hfree =>
    rw [Moves, hq, List.head?_cons, Option.some.injEq] at hmoves
    subst hmoves
    exact hj.not_granted hu hmem ht hp hfree
  | stop ht hp =>
    cases hmoves
    exact hidle ht hp

/-- Those behind a task that waits stay there. -/
theorem Behind.step {x j : ℕ} (hx : s.Behind x j) (hs : s.Queued) (hwake : a ≠ .wake x) (hstop : a ≠ .stop x)
    (h : Step s a s') : ¬s.Moves j a ∧ s'.Behind x j := by
  obtain ⟨hwaits, hbehind⟩ := hx
  have hstill : ¬s.Moves x a := hwaits.still hwake hstop h
  have hwaits' : s'.Waits x := by
    obtain ⟨u, hu, hu'⟩ := hwaits
    exact ⟨u, (tasks_of_not_moves hstill h hu).trans hu, hu'⟩
  rcases hbehind with rfl | ⟨l, hj⟩
  · exact ⟨hstill, hwaits', Or.inl rfl⟩
  · exact ⟨hj.still h, hwaits', Or.inr ⟨l, (hj.step hs hstill h).1⟩⟩

/-- Starvation: as long as the holder waits, or the one it stands behind, nobody from the writer on leaves the queue, and all
who ask for the lock join it. -/
theorem jam_run (hs : s.Queued) {l : L} {i j x : ℕ} (hj : s.Jammed l j i) (hx : s.Behind x j) {as : List (Action L E)}
    (hwake : .wake x ∉ as) (hstop : .stop x ∉ as) (h : run State.step s as = some s') :
    s'.Jammed l j i ∧ s'.tasks[j]? = s.tasks[j]? ∧ s'.jam l i = s.jam l i ++ s.asked l as := by
  induction as generalizing s with
  | nil =>
    cases h
    exact ⟨hj, rfl, (List.append_nil _).symm⟩
  | cons a as ih =>
    obtain ⟨t, ht, h⟩ := run_cons.1 h
    rw [List.mem_cons, not_or] at hwake hstop
    obtain ⟨hstill, hxt⟩ := hx.step hs (Ne.symm hwake.1) (Ne.symm hstop.1) (step_sound ht)
    obtain ⟨hjt, hsame, hjam⟩ := hj.step hs hstill (step_sound ht)
    obtain ⟨hjs', hsame', hjam'⟩ := ih (hs.step (step_sound ht)) hjt hxt hwake.2 hstop.2 h
    refine ⟨hjs', hsame'.trans hsame, ?_⟩
    rw [hjam', hjam, asked, ht, List.append_assoc]

omit [DecidableEq L] in
/-- Those from a task on stand in the queue. -/
theorem mem_queue_of_mem_jam {l : L} {i k : ℕ} (h : k ∈ s.jam l i) : k ∈ s.queue l :=
  (List.dropWhile_sublist _).mem h

end State

end Locks
