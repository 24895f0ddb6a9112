import BitzPool.Lib.Locks
import BitzPool.Lib.Table
import Mathlib.Logic.Relation

/-!
# Lock disciplines

A `Discipline` says which locks may be acquired, and which events waited for, while a lock is held; `Prog.check` decides
whether a program keeps to it.  Every task of a run keeps to the disciplines that its program keeps to (`exists_origin`).  If
all programs keep to one, there is no deadlock: tasks that get no further event from outside come to rest after a bounded
number of steps, however they are scheduled (`length_le_cost`), and a lock is held or asked for then only because of a task
that waits for an event in a lock's scope (`blocked_of_resting`).
-/

namespace Locks

open Transition Relation

universe u

/-- What may be done in the scope of a lock: `nest l l'` says that `l'` may be acquired while `l` is held, and `may l e` that
`e` may be waited for.  `slow` events are those that a loop has to wait for. -/
structure Discipline (L E : Type u) where
  nest : L → L → Bool
  may : L → E → Bool
  slow : E → Bool
  rank : L → ℕ
  rank_lt : ∀ {l l'}, nest l l' = true → rank l' < rank l

variable {L E : Type u} [DecidableEq L] (d : Discipline L E)

/-- Every way through the program waits for a slow event. -/
def Prog.stops : Prog L E → Bool
  | .wait e => d.slow e
  | .seq p q => p.stops || q.stops
  | .alt p q => p.stops && q.stops
  | .rep n p => n ≠ 0 && p.stops
  | _ => false

/-- The locks held after the program, when it keeps to the discipline. -/
def Prog.check : Prog L E → List L → Option (List L)
  | .skip, held => some held
  | .acquire l _, held => if held.all (d.nest · l) then some (l :: held) else none
  | .release l, held => if l ∈ held then some (held.erase l) else none
  | .wait e, held => if held.all (d.may · e) then some held else none
  | .seq p q, held => (p.check held).bind q.check
  | .alt p q, held => if p.check held = q.check held then p.check held else none
  | .loop p, held => if p.stops d ∧ p.check held = some held then some held else none
  | .rep _ p, held => if p.check held = some held then some held else none

def checkAll : List (Prog L E) → List L → Option (List L)
  | [], held => some held
  | p :: k, held => (p.check d held).bind (checkAll k)

/-- The steps that a program can take until it waits for a slow event. -/
def Prog.cost : Prog L E → ℕ
  | .skip => 1
  | .acquire _ _ => 2
  | .release _ => 1
  | .wait e => if d.slow e then 0 else 1
  | .seq p q => 1 + (if p.stops d then p.cost else p.cost + q.cost)
  | .alt p q => 1 + max p.cost q.cost
  | .loop p => 1 + p.cost
  | .rep n p => 1 + n * (1 + p.cost)

def costs : List (Prog L E) → ℕ
  | [] => 0
  | p :: k => if p.stops d then p.cost d else p.cost d + costs k

def Task.cost (t : Task L E) : ℕ := (if t.pending = none then 0 else 1) + costs d t.todo

def State.cost (s : State L E) : ℕ := (s.tasks.map (Task.cost d)).sum

/-- The locks that a task has when it is let in. -/
def Task.locks (t : Task L E) : List L := (t.pending.map Prod.fst).toList ++ t.held.map Prod.fst

/-- A task that keeps to the discipline, and gives back what it has. -/
structure Task.Keeps (t : Task L E) : Prop where
  check : checkAll d t.todo t.locks = some []
  nest : ∀ {l m}, t.pending = some (l, m) → ∀ h ∈ t.held, d.nest h.1 l = true

/-! ### What keeps to the discipline -/

variable {d}

theorem Prog.check_seq {p q : Prog L E} {held mid held' : List L} (hp : p.check d held = some mid)
    (hq : q.check d mid = some held') : (Prog.seq p q).check d held = some held' := by
  rw [Prog.check, hp, Option.bind_some, hq]

theorem Prog.check_alt {p q : Prog L E} {held held' : List L} (hp : p.check d held = some held')
    (hq : q.check d held = some held') : (Prog.alt p q).check d held = some held' := by
  rw [Prog.check, hp, hq, if_pos rfl]

theorem Prog.check_loop {p : Prog L E} {held : List L} (hstops : p.stops d = true) (hp : p.check d held = some held) :
    (Prog.loop p).check d held = some held := by
  rw [Prog.check, if_pos ⟨hstops, hp⟩]

omit [DecidableEq L] in
theorem costs_cons (p : Prog L E) (k : List (Prog L E)) :
    costs d (p :: k) = if p.stops d then p.cost d else p.cost d + costs d k := by
  rw [costs]

omit [DecidableEq L] in
theorem Task.locks_of_idle {t : Task L E} (h : t.pending = none) : t.locks = t.held.map Prod.fst := by
  rw [locks, h]
  rfl

/-- The check of a task that stands in no queue, from what it does next. -/
private theorem Task.Keeps.next {t : Task L E} (ht : t.Keeps d) {p : Prog L E} {k : List (Prog L E)}
    (hk : t.next? = some (p, k)) :
    t.pending = none ∧ ∃ held, p.check d (t.held.map Prod.fst) = some held ∧ checkAll d k held = some [] := by
  obtain ⟨hp, htodo⟩ := Task.next?_eq_some.1 hk
  have hcheck := ht.check
  rw [htodo, Task.locks_of_idle hp, checkAll, Option.bind_eq_some_iff] at hcheck
  exact ⟨hp, hcheck⟩

/-- A task waits in the scope of a lock for what may be waited for there. -/
theorem Task.Keeps.may {t : Task L E} (ht : t.Keeps d) {e : E} (hwaits : t.waits? = some e) {l : L}
    (hl : l ∈ t.held.map Prod.fst) : d.may l e = true := by
  rw [Task.waits?] at hwaits
  split at hwaits
  · next e' k hk =>
    cases hwaits
    obtain ⟨-, held, hcheck, -⟩ := ht.next hk
    rw [Prog.check] at hcheck
    split at hcheck
    · next hall => exact List.all_eq_true.1 hall l hl
    · cases hcheck
  · cases hwaits

omit [DecidableEq L] in
private theorem keeps_of_idle [DecidableEq L] {t : Task L E} (hp : t.pending = none)
    (h : checkAll d t.todo (t.held.map Prod.fst) = some []) : t.Keeps d where
  check := by rw [Task.locks_of_idle hp]; exact h
  nest h := by rw [hp] at h; cases h

theorem Task.Goes.keeps {t t' : Task L E} {b : Bool} (h : t.Goes b t') (ht : t.Keeps d) : t'.Keeps d := by
  cases h with
  | skip hk =>
    obtain ⟨hp, held, hcheck, hrest⟩ := ht.next hk
    cases hcheck
    exact keeps_of_idle hp hrest
  | @release _ l k hk hl =>
    obtain ⟨hp, held, hcheck, hrest⟩ := ht.next hk
    rw [Prog.check, if_pos hl] at hcheck
    cases hcheck
    refine keeps_of_idle hp ?_
    have herase : (t.held.eraseP (·.1 = l)).map Prod.fst = (t.held.map Prod.fst).erase l := by
      rw [List.erase_eq_eraseP, List.eraseP_map]
      congr 2
      funext h
      exact ((Bool.beq_eq_decide_eq l h.1).trans (decide_eq_decide.2 eq_comm)).symm
    rw [herase]
    exact hrest
  | seq hk =>
    obtain ⟨hp, held, hcheck, hrest⟩ := ht.next hk
    obtain ⟨mid, hmid, hcheck⟩ := Option.bind_eq_some_iff.1 hcheck
    refine keeps_of_idle hp ?_
    simp only [checkAll, hmid, hcheck, hrest, Option.bind_some]
  | @alt _ p q k hk =>
    obtain ⟨hp, held, hcheck, hrest⟩ := ht.next hk
    rw [Prog.check] at hcheck
    split at hcheck
    · next he =>
      refine keeps_of_idle hp ?_
      rw [checkAll]
      split
      · rw [hcheck, Option.bind_some, hrest]
      · rw [← he, hcheck, Option.bind_some, hrest]
    · cases hcheck
  | @again p k hk =>
    obtain ⟨hp, held, hcheck, hrest⟩ := ht.next hk
    refine keeps_of_idle hp ?_
    have hloop := hcheck
    rw [Prog.check] at hcheck
    split at hcheck
    · next h =>
      cases hcheck
      rw [checkAll, h.2, Option.bind_some, checkAll, hloop, Option.bind_some, hrest]
    · cases hcheck
  | exit hk =>
    obtain ⟨hp, held, hcheck, hrest⟩ := ht.next hk
    rw [Prog.check] at hcheck
    split at hcheck
    · cases hcheck
      exact keeps_of_idle hp hrest
    · cases hcheck
  | done hk =>
    obtain ⟨hp, held, hcheck, hrest⟩ := ht.next hk
    rw [Prog.check] at hcheck
    split at hcheck
    · cases hcheck
      exact keeps_of_idle hp hrest
    · cases hcheck
  | @rep _ n p k hk =>
    obtain ⟨hp, held, hcheck, hrest⟩ := ht.next hk
    rw [Prog.check] at hcheck
    split at hcheck
    · next h =>
      cases hcheck
      refine keeps_of_idle hp ?_
      rw [checkAll, h, Option.bind_some, checkAll, Prog.check, if_pos h, Option.bind_some, hrest]
    · cases hcheck

/-- A step of a task by itself is one of those it can take until it waits. -/
theorem Task.Goes.cost_lt {t t' : Task L E} {b : Bool} (h : t.Goes b t') (ht : t.Keeps d) : t'.cost d < t.cost d := by
  have hcost : ∀ {p : Prog L E} {k k' : List (Prog L E)} {held : List (L × Mode)}, t.next? = some (p, k) →
      costs d k' < costs d (p :: k) → Task.cost d { t with held := held, todo := k' } < t.cost d := by
    intro p k k' held hk hlt
    obtain ⟨hp, htodo⟩ := Task.next?_eq_some.1 hk
    rw [Task.cost, Task.cost, htodo]
    exact Nat.add_lt_add_left hlt _
  cases h with
  | skip hk =>
    refine hcost hk ?_
    simp [costs_cons, Prog.stops, Prog.cost]
  | release hk hl =>
    refine hcost hk ?_
    simp [costs_cons, Prog.stops, Prog.cost]
  | @seq _ p q k hk =>
    refine hcost hk ?_
    cases hp : p.stops d <;> cases hq : q.stops d <;> simp [costs_cons, Prog.stops, Prog.cost, hp, hq]
    omega
  | @alt _ p q k hk =>
    refine hcost hk ?_
    cases b <;> cases hp : p.stops d <;> cases hq : q.stops d <;> simp [costs_cons, Prog.stops, Prog.cost, hp, hq] <;> omega
  | @again p k hk =>
    refine hcost hk ?_
    obtain ⟨-, held, hcheck, -⟩ := ht.next hk
    have hstops : p.stops d = true := by
      rw [Prog.check] at hcheck
      split at hcheck
      · next h => exact h.1
      · cases hcheck
    simp only [costs_cons, Prog.stops, Prog.cost, hstops, if_true, Bool.false_eq_true, if_false]
    omega
  | @exit p k hk =>
    refine hcost hk ?_
    simp only [costs_cons, Prog.stops, Prog.cost, Bool.false_eq_true, if_false]
    omega
  | @done _ p k hk =>
    refine hcost hk ?_
    simp [costs_cons, Prog.stops, Prog.cost]
  | @rep _ n p k hk =>
    refine hcost hk ?_
    have hmul : (n + 1) * (1 + p.cost d) = n * (1 + p.cost d) + (1 + p.cost d) := Nat.succ_mul _ _
    cases hp : p.stops d <;> simp [costs_cons, Prog.stops, Prog.cost, hmul, hp] <;> omega

/-! ### The tasks of a run -/

namespace State

variable {s s' : State L E} {a : Action L E}

/-- The program that an action starts a task for. -/
def Action.spawned : Action L E → List (Prog L E)
  | .spawn p => [p]
  | _ => []

/-- The tasks run these programs, and keep to the disciplines that the programs keep to. -/
structure Origin (s : State L E) (ps : List (Prog L E)) : Prop where
  length : s.tasks.length = ps.length
  keeps : ∀ {i : ℕ} {t : Task L E} {p : Prog L E}, s.tasks[i]? = some t → ps[i]? = some p →
    ∀ d : Discipline L E, p.check d [] = some [] → t.Keeps d

private theorem task_set {i : ℕ} {t t' : Task L E} (ht : s.tasks[i]? = some t)
    (hkeeps : ∀ d : Discipline L E, t.Keeps d → t'.Keeps d) {j : ℕ} {u' : Task L E}
    (hu' : (s.tasks.set i t')[j]? = some u') :
    ∃ u, s.tasks[j]? = some u ∧ ∀ d : Discipline L E, u.Keeps d → u'.Keeps d := by
  by_cases hij : i = j
  · subst hij
    rw [List.getElem?_set_self (List.getElem?_eq_some_iff.1 ht).1] at hu'
    cases hu'
    exact ⟨t, ht, hkeeps⟩
  · rw [List.getElem?_set_ne hij] at hu'
    exact ⟨u', hu', fun d hd => hd⟩

/-- A task of the next state was there before, and keeps to what it kept to, or it has been started. -/
theorem Step.task (h : Step s a s') {i : ℕ} {t' : Task L E} (ht' : s'.tasks[i]? = some t') :
    (∃ t, s.tasks[i]? = some t ∧ ∀ d : Discipline L E, t.Keeps d → t'.Keeps d) ∨
      i = s.tasks.length ∧ ∃ p, a = .spawn p ∧ t' = ⟨[], none, [p]⟩ := by
  cases h with
  | @spawn p =>
    change (s.tasks ++ [⟨[], none, [p]⟩])[i]? = some t' at ht'
    by_cases hi : i < s.tasks.length
    · rw [List.getElem?_append_left hi] at ht'
      exact .inl ⟨t', ht', fun d hd => hd⟩
    · rw [List.getElem?_append_right (Nat.le_of_not_lt hi), List.getElem?_singleton] at ht'
      split at ht' <;> cases ht'
      next hsub => exact .inr ⟨by omega, p, rfl, rfl⟩
  | go ht hgo => exact .inl (task_set ht (fun d => hgo.keeps) ht')
  | @request j t l m k ht hk =>
    refine .inl (task_set ht (fun d hkeeps => ?_) ht')
    obtain ⟨hp, held, hcheck, hrest⟩ := hkeeps.next hk
    rw [Prog.check] at hcheck
    split at hcheck
    · next hall =>
      cases hcheck
      refine ⟨hrest, ?_⟩
      intro l' m' he h hh
      cases he
      exact List.all_eq_true.1 hall h.1 (List.mem_map_of_mem hh)
    · cases hcheck
  | @grant l l' j rest t m hq ht hp hfree =>
    refine .inl (task_set ht (fun d hkeeps => keeps_of_idle rfl ?_) ht')
    have hcheck := hkeeps.check
    rw [Task.locks, hp] at hcheck
    exact hcheck
  | wake ht hk =>
    refine .inl (task_set ht (fun d hkeeps => ?_) ht')
    obtain ⟨hp, held, hcheck, hrest⟩ := hkeeps.next hk
    rw [Prog.check] at hcheck
    split at hcheck
    · cases hcheck
      exact keeps_of_idle hp hrest
    · cases hcheck
  | stop ht hp => exact .inl (task_set ht (fun d _ => keeps_of_idle rfl rfl) ht')

theorem Step.length (h : Step s a s') : s'.tasks.length = s.tasks.length + a.spawned.length := by
  cases h with
  | spawn => exact List.length_append
  | _ => exact List.length_set

/-- A task that starts keeps to what its program keeps to. -/
private theorem keeps_of_check {p : Prog L E} (h : p.check d [] = some []) : (Task.mk [] none [p]).Keeps d := by
  refine keeps_of_idle rfl ?_
  rw [checkAll, List.map_nil, h]
  rfl

theorem Origin.step {ps : List (Prog L E)} (hs : s.Origin ps) (h : Step s a s') : s'.Origin (ps ++ a.spawned) where
  length := by rw [h.length, hs.length, List.length_append]
  keeps := by
    intro i t' p ht' hp d hd
    rcases h.task ht' with ⟨t, ht, hkeeps⟩ | ⟨rfl, q, rfl, rfl⟩
    · have hi : i < ps.length := hs.length ▸ (List.getElem?_eq_some_iff.1 ht).1
      rw [List.getElem?_append_left hi] at hp
      exact hkeeps d (hs.keeps ht hp d hd)
    · rw [hs.length, List.getElem?_append_right (Nat.le_refl _), Nat.sub_self] at hp
      cases hp
      exact keeps_of_check hd

theorem Origin.of_run {ps : List (Prog L E)} (hs : s.Origin ps) {as : List (Action L E)}
    (h : run State.step s as = some s') : s'.Origin (ps ++ as.flatMap Action.spawned) := by
  induction as generalizing s ps with
  | nil =>
    cases h
    rw [List.flatMap_nil, List.append_nil]
    exact hs
  | cons a as ih =>
    obtain ⟨t, ht, h⟩ := run_cons.1 h
    rw [List.flatMap_cons, ← List.append_assoc]
    exact ih (hs.step (step_sound ht)) h

/-- Every task runs the program that it was started for. -/
theorem exists_origin {as : List (Action L E)} (h : run State.step empty as = some s) {i : ℕ} {t : Task L E}
    (ht : s.tasks[i]? = some t) :
    ∃ p, (as.flatMap Action.spawned)[i]? = some p ∧ ∀ d : Discipline L E, p.check d [] = some [] → t.Keeps d := by
  have hempty : (empty : State L E).Origin [] := ⟨rfl, by intro i t p hi; cases hi⟩
  have horigin : s.Origin (as.flatMap Action.spawned) := hempty.of_run h
  have hi : i < (as.flatMap Action.spawned).length := horigin.length ▸ (List.getElem?_eq_some_iff.1 ht).1
  exact ⟨_, List.getElem?_eq_getElem hi, horigin.keeps ht (List.getElem?_eq_getElem hi)⟩

/-- All tasks keep to the discipline. -/
structure Kept (d : Discipline L E) (s : State L E) : Prop extends s.Queued where
  tasks : ∀ {i : ℕ} {t : Task L E}, s.tasks[i]? = some t → t.Keeps d

theorem Kept.empty : (empty : State L E).Kept d := ⟨.empty, by intro i t hi; cases hi⟩

theorem Kept.step (hs : s.Kept d) (hspawn : ∀ p, a = .spawn p → p.check d [] = some []) (h : Step s a s') :
    s'.Kept d where
  toQueued := hs.toQueued.step h
  tasks := by
    intro i t' ht'
    rcases h.task ht' with ⟨t, ht, hkeeps⟩ | ⟨-, p, rfl, rfl⟩
    · exact hkeeps d (hs.tasks ht)
    · exact keeps_of_check (hspawn p rfl)

theorem Kept.of_run (hs : s.Kept d) {as : List (Action L E)} (hspawn : ∀ p, .spawn p ∈ as → p.check d [] = some [])
    (h : run State.step s as = some s') : s'.Kept d := by
  induction as generalizing s with
  | nil =>
    cases h
    exact hs
  | cons a as ih =>
    obtain ⟨t, ht, h⟩ := run_cons.1 h
    have hkept : t.Kept d := hs.step (fun p hp => hspawn p (hp ▸ List.mem_cons_self)) (step_sound ht)
    exact ih hkept (fun p hp => hspawn p (List.mem_cons_of_mem _ hp)) h

/-! ### Coming to rest -/

/-- The steps that need nothing from outside but the events `ev`. -/
def Inner (ev : E → Prop) (s : State L E) : Action L E → Prop
  | .spawn _ | .stop _ => False
  | .go _ _ | .request _ | .grant _ => True
  | .wake i => ∃ e ∈ s.tasks[i]?.bind Task.waits?, ev e

instance (ev : E → Prop) [DecidablePred ev] (s : State L E) : ∀ a, Decidable (s.Inner ev a)
  | .spawn _ | .stop _ => inferInstanceAs (Decidable False)
  | .go _ _ | .request _ | .grant _ => inferInstanceAs (Decidable True)
  | .wake i => inferInstanceAs (Decidable (∃ e ∈ s.tasks[i]?.bind Task.waits?, ev e))

/-- No task can go on. -/
def Resting (ev : E → Prop) (s : State L E) : Prop := ∀ a, s.Inner ev a → s.step a = none

omit [DecidableEq L] in
private theorem cost_set_lt {i : ℕ} {t t' : Task L E} (ht : s.tasks[i]? = some t) (queue : L → List ℕ)
    (hlt : t'.cost d < t.cost d) : (State.mk (s.tasks.set i t') queue).cost d < s.cost d := by
  have hsum := Keyed.sum_map_set ht (y := t') (Task.cost d)
  rw [cost, cost]
  change ((s.tasks.set i t').map (Task.cost d)).sum < _
  omega

variable {ev : E → Prop}

theorem Kept.inner (hs : s.Kept d) {as : List (Action L E)} (hin : Along State.step (Inner ev) s as)
    (h : run State.step s as = some s') : s'.Kept d := by
  refine run_invariant (fun hs hin h => hs.step ?_ (step_sound h)) hs hin h
  rintro p rfl
  exact hin.elim

theorem Step.cost_lt (hs : s.Kept d) (hfast : ∀ e, ev e → d.slow e = false) (hin : s.Inner ev a) (h : Step s a s') :
    s'.cost d < s.cost d := by
  cases h with
  | spawn => exact hin.elim
  | go ht hgo => exact cost_set_lt ht _ (hgo.cost_lt (hs.tasks ht))
  | @request i t l m k ht hk =>
    refine cost_set_lt ht _ ?_
    obtain ⟨hp, htodo⟩ := Task.next?_eq_some.1 hk
    simp only [Task.cost, hp, htodo, costs_cons, Prog.stops, Prog.cost, if_true, Bool.false_eq_true, if_false,
      reduceCtorEq]
    omega
  | @grant l l' i rest t m hq ht hp hfree =>
    refine cost_set_lt ht _ ?_
    simp [Task.cost, hp]
  | @wake i t e k ht hk =>
    refine cost_set_lt ht _ ?_
    obtain ⟨hp, htodo⟩ := Task.next?_eq_some.1 hk
    have hslow : d.slow e = false := by
      obtain ⟨e', he', hev⟩ := hin
      rw [ht, Option.mem_def, Option.bind_some, Task.waits?, hk] at he'
      cases he'
      exact hfast e hev
    simp [Task.cost, hp, htodo, costs_cons, Prog.stops, Prog.cost, hslow]
  | stop => exact hin.elim

/-- However the tasks are scheduled, they come to rest. -/
theorem length_le_cost (hs : s.Kept d) (hfast : ∀ e, ev e → d.slow e = false) {as : List (Action L E)}
    (hin : Along State.step (Inner ev) s as) (h : run State.step s as = some s') : as.length + s'.cost d ≤ s.cost d := by
  induction as generalizing s with
  | nil =>
    cases h
    simp
  | cons a as ih =>
    obtain ⟨t, ht, h⟩ := run_cons.1 h
    have hstep : Step s a t := step_sound ht
    have hlt : t.cost d < s.cost d := hstep.cost_lt hs hfast hin.1
    have hkept : t.Kept d := hs.step (by rintro p rfl; exact hin.1.elim) hstep
    have := ih hkept (hin.2 t ht) h
    simp only [List.length_cons]
    omega

omit [DecidableEq L] in
/-- A task can go on by itself unless it is to wait, or to ask for a lock. -/
private theorem exists_go [DecidableEq L] {t : Task L E} {p : Prog L E} {k : List (Prog L E)} (hk : t.next? = some (p, k))
    (hacquire : ∀ l m, p ≠ .acquire l m) (hwait : ∀ e, p ≠ .wait e)
    (hrelease : ∀ l, p = .release l → l ∈ t.held.map Prod.fst) : ∃ t', t.go true = some t' := by
  cases p with
  | acquire l m => exact absurd rfl (hacquire l m)
  | wait e => exact absurd rfl (hwait e)
  | release l => exact ⟨_, by rw [Task.go, hk]; exact if_pos (hrelease l rfl)⟩
  | rep n p => cases n <;> exact ⟨_, by rw [Task.go, hk]⟩
  | _ => exact ⟨_, by rw [Task.go, hk]⟩

/-- At rest, whoever has a lock asks for one that may be acquired in its scope, or waits. -/
private theorem Kept.holder (hs : s.Kept d) (hrest : s.Resting ev) {i : ℕ} {t : Task L E} (hi : s.tasks[i]? = some t)
    {l : L} (hl : l ∈ t.held.map Prod.fst) :
    (∃ l' m, t.pending = some (l', m) ∧ d.nest l l' = true) ∨ ∃ e, t.waits? = some e ∧ d.may l e = true ∧ ¬ev e := by
  have hkeeps : t.Keeps d := hs.tasks hi
  cases hp : t.pending with
  | some want =>
    obtain ⟨h, hh, rfl⟩ := List.mem_map.1 hl
    exact .inl ⟨want.1, want.2, rfl, hkeeps.nest hp h hh⟩
  | none =>
    right
    cases htodo : t.todo with
    | nil =>
      -- the task has ended, and gives back what it has
      have hcheck := hkeeps.check
      rw [htodo, Task.locks_of_idle hp, checkAll] at hcheck
      rw [Option.some.inj hcheck] at hl
      cases hl
    | cons p k =>
      have hk : t.next? = some (p, k) := Task.next?_eq_some.2 ⟨hp, htodo⟩
      obtain ⟨-, held, hcheck, -⟩ := hkeeps.next hk
      have hwait : ∃ e, p = .wait e := by
        by_contra hno
        obtain ⟨t', ht'⟩ := exists_go hk
          (by
            rintro l' m rfl
            have := hrest (.request i) trivial
            simp [State.step, stepRequest, hi, hk] at this)
          (fun e he => hno ⟨e, he⟩)
          (by
            rintro l' rfl
            rw [Prog.check] at hcheck
            split at hcheck
            · next hmem => exact hmem
            · cases hcheck)
        have := hrest (.go i true) trivial
        simp [State.step, stepGo, hi, ht'] at this
      obtain ⟨e, rfl⟩ := hwait
      have hwaits : t.waits? = some e := by rw [Task.waits?, hk]
      refine ⟨e, hwaits, hkeeps.may hwaits hl, fun hev => ?_⟩
      have := hrest (.wake i) ⟨e, by rw [hi]; exact hwaits, hev⟩
      simp [State.step, stepWake, hi, hk] at this

/-- A lock that a task has. -/
def Held (s : State L E) (l : L) : Prop := ∃ (i : ℕ) (t : Task L E), s.tasks[i]? = some t ∧ l ∈ t.held.map Prod.fst

/-- At rest, a lock that others stand in the queue for is held. -/
private theorem Kept.held_of_queue (hs : s.Kept d) (hrest : s.Resting ev) {l : L} (hq : s.queue l ≠ []) : s.Held l := by
  obtain ⟨i, rest, hqueue⟩ := List.exists_cons_of_ne_nil hq
  obtain ⟨m, hm⟩ := (hs.queue l i).1 (hqueue ▸ List.mem_cons_self)
  obtain ⟨t, ht, hp⟩ := Option.bind_eq_some_iff.1 hm
  have hfree : ¬s.Free l m := fun hfree => by
    have := hrest (.grant l) trivial
    simp [State.step, stepGrant, hqueue, ht, hp, hfree] at this
  simp only [Free, not_forall] at hfree
  obtain ⟨u, hu, h, hh, rfl, -⟩ := hfree
  obtain ⟨j, hj⟩ := List.mem_iff_getElem?.1 hu
  exact ⟨j, u, hj, List.mem_map_of_mem hh⟩

/-- Without deadlock: at rest, a lock is held or asked for only because of a task that waits, in the scope of this lock or
of one that is acquired in its scope, for an event that does not come. -/
theorem blocked_of_resting (hs : s.Kept d) (hrest : s.Resting ev) {l : L} (hl : s.Held l ∨ s.queue l ≠ []) :
    ∃ l', ReflTransGen (fun l l' => d.nest l l' = true) l l' ∧
      ∃ (i : ℕ) (t : Task L E), s.tasks[i]? = some t ∧ l' ∈ t.held.map Prod.fst ∧
        ∃ e, t.waits? = some e ∧ d.may l' e = true ∧ ¬ev e := by
  -- the ranks go down from a lock to those its holders ask for
  induction hn : d.rank l using Nat.strong_induction_on generalizing l with
  | _ n ih =>
    obtain ⟨i, t, ht, hmem⟩ : s.Held l := hl.elim id (hs.held_of_queue hrest)
    rcases hs.holder hrest ht hmem with ⟨l', m, hp, hnest⟩ | hwait
    · have hqueue : i ∈ s.queue l' := (hs.queue l' i).2 ⟨m, (pending?_eq ht).trans hp⟩
      have hlt : d.rank l' < n := hn ▸ d.rank_lt hnest
      obtain ⟨l'', hpath, hblocked⟩ := ih (d.rank l') hlt (.inr (List.ne_nil_of_mem hqueue)) rfl
      exact ⟨l'', .head hnest hpath, hblocked⟩
    · exact ⟨l, .refl, i, t, ht, hmem, hwait⟩

end State

end Locks
