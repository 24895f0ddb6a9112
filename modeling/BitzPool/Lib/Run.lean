import Mathlib.Order.WellFounded

/-!
# Runs of a step function

A system is a partial function `step : σ → α → Option σ`: the state after an action, or `none` when the action
is not enabled.  An interleaving of several tasks is a list of actions, and `run` is what it leads to.  `Along`
says that every step of a run is taken under a condition on the state before it; `run_invariant` is the induction
every safety theorem rests on, and `along_of_invariant` the variant for what must hold of every step.  `watched` runs
a system beside an observer, who sees the steps and does not take part in them (`run_watched`).  `eventually_stable`
is for a system that runs for ever: one that makes progress or stays where it is comes to rest; and with `turns_end` a
task whose turns bring a rank down, while the others do not raise it, has its last turn, so that what lasts only as long
as there are turns comes to an end (`ends_of_turns`).  `forever` is an endless run made of a finite one.
-/

namespace Transition

variable {σ α : Type*} {step : σ → α → Option σ} {C Q : σ → α → Prop} {I : σ → Prop}

/-- The state after the actions `as`, provided each of them is enabled when its turn comes. -/
def run (step : σ → α → Option σ) : σ → List α → Option σ
  | s, [] => some s
  | s, a :: as => (step s a).bind fun s' => run step s' as

/-- Every action of the run is taken in a state that satisfies `C`. -/
def Along (step : σ → α → Option σ) (C : σ → α → Prop) : σ → List α → Prop
  | _, [] => True
  | s, a :: as => C s a ∧ ∀ s' ∈ step s a, Along step C s' as

instance decidableAlong (step : σ → α → Option σ) (C : σ → α → Prop) [∀ s a, Decidable (C s a)] :
    ∀ s as, Decidable (Along step C s as)
  | _, [] => isTrue trivial
  | s, a :: as =>
    match h : step s a with
    | none => decidable_of_iff (C s a) (by simp [Along, h])
    | some s' =>
      have := decidableAlong step C s' as
      decidable_of_iff (C s a ∧ Along step C s' as) (by simp [Along, h])

@[simp] theorem run_nil (s : σ) : run step s [] = some s := rfl

theorem run_cons {s s' : σ} {a : α} {as : List α} :
    run step s (a :: as) = some s' ↔ ∃ t, step s a = some t ∧ run step t as = some s' := by
  simp [run, Option.bind_eq_some_iff]

theorem run_append {s s' : σ} {as bs : List α} :
    run step s (as ++ bs) = some s' ↔ ∃ t, run step s as = some t ∧ run step t bs = some s' := by
  induction as generalizing s with
  | nil => simp
  | cons a as ih =>
    simp only [List.cons_append, run_cons, ih]
    constructor
    · rintro ⟨t, h1, u, h2, h3⟩
      exact ⟨u, ⟨t, h1, h2⟩, h3⟩
    · rintro ⟨u, ⟨t, h1, h2⟩, h3⟩
      exact ⟨t, h1, u, h2, h3⟩

/-- A run on concrete inputs, by evaluation. -/
theorem exists_of_run {s : σ} {as : List α} {P : σ → Prop} [DecidablePred P]
    (h : (run step s as).any (fun s' => P s') = true) : ∃ s', run step s as = some s' ∧ P s' := by
  obtain ⟨s', hs', h⟩ := (Option.any_eq_true _ _).1 h
  exact ⟨s', hs', of_decide_eq_true h⟩

theorem along_of_forall {s : σ} {as : List α} (h : ∀ a ∈ as, ∀ s, C s a) : Along step C s as := by
  induction as generalizing s with
  | nil => trivial
  | cons a as ih =>
    exact ⟨h a List.mem_cons_self s, fun s' _ => ih fun b hb => h b (List.mem_cons_of_mem _ hb)⟩

theorem Along.true (step : σ → α → Option σ) (s : σ) (as : List α) : Along step (fun _ _ => True) s as :=
  along_of_forall fun _ _ _ => trivial

/-- A property kept by every step taken under `C` holds after every run whose steps are taken under `C`. -/
theorem run_invariant (hI : ∀ {s a s'}, I s → C s a → step s a = some s' → I s') {s s' : σ} {as : List α}
    (hs : I s) (hC : Along step C s as) (h : run step s as = some s') : I s' := by
  induction as generalizing s with
  | nil => cases h; exact hs
  | cons a as ih =>
    obtain ⟨t, ht, h⟩ := run_cons.1 h
    exact ih (hI hs hC.1 ht) (hC.2 t ht) h

/-- If an invariant implies that no step goes wrong, no step of a run goes wrong. -/
theorem along_of_invariant (hI : ∀ {s a s'}, I s → C s a → step s a = some s' → I s')
    (hQ : ∀ {s a}, I s → C s a → Q s a) {s : σ} {as : List α} (hs : I s) (hC : Along step C s as) :
    Along step Q s as := by
  induction as generalizing s with
  | nil => trivial
  | cons a as ih => exact ⟨hQ hs hC.1, fun t ht => ih (hI hs hC.1 ht) (hC.2 t ht)⟩

/-- If in the states of an invariant the steps that go right are those under `C`, all steps of a run go right exactly
when it is taken under `C`. -/
theorem along_iff_of_invariant (hI : ∀ {s a s'}, I s → C s a → step s a = some s' → I s')
    (hQ : ∀ {s a}, I s → (Q s a ↔ C s a)) {s : σ} {as : List α} (hs : I s) :
    Along step Q s as ↔ Along step C s as := by
  induction as generalizing s with
  | nil => exact Iff.rfl
  | cons a as ih =>
    constructor
    · intro h
      exact ⟨(hQ hs).1 h.1, fun t ht => (ih (hI hs ((hQ hs).1 h.1) ht)).1 (h.2 t ht)⟩
    · intro h
      exact ⟨(hQ hs).2 h.1, fun t ht => (ih (hI hs h.1 ht)).2 (h.2 t ht)⟩

/-- If a step from a state of `I` leads to one of `I` exactly when it is taken under `C`, a run stays in `I` exactly when
it is taken under `C`. -/
theorem along_next_iff (hI : ∀ {s a s'}, I s → step s a = some s' → (I s' ↔ C s a)) {s s' : σ} {as : List α}
    (hs : I s) (h : run step s as = some s') :
    Along step (fun s a => ∀ t ∈ step s a, I t) s as ↔ Along step C s as := by
  induction as generalizing s with
  | nil => exact Iff.rfl
  | cons a as ih =>
    obtain ⟨t, ht, h⟩ := run_cons.1 h
    constructor
    · intro hnext
      have hIt : I t := hnext.1 t ht
      refine ⟨(hI hs ht).1 hIt, fun t' ht' => ?_⟩
      cases ht.symm.trans ht'
      exact (ih hIt h).1 (hnext.2 t ht)
    · intro hC
      have hIt : I t := (hI hs ht).2 hC.1
      refine ⟨fun t' ht' => ?_, fun t' ht' => ?_⟩ <;> cases ht.symm.trans ht'
      · exact hIt
      · exact (ih hIt h).2 (hC.2 t ht)

theorem Along.and {D : σ → α → Prop} {s : σ} {as : List α} (hC : Along step C s as) (hD : Along step D s as) :
    Along step (fun s a => C s a ∧ D s a) s as := by
  induction as generalizing s with
  | nil => trivial
  | cons a as ih => exact ⟨⟨hC.1, hD.1⟩, fun t ht => ih (hC.2 t ht) (hD.2 t ht)⟩

theorem Along.append {s t : σ} {as bs : List α} (has : Along step C s as) (h : run step s as = some t)
    (hbs : Along step C t bs) : Along step C s (as ++ bs) := by
  induction as generalizing s with
  | nil => cases h; exact hbs
  | cons a as ih =>
    obtain ⟨u, hu, h⟩ := run_cons.1 h
    refine ⟨has.1, fun u' hu' => ?_⟩
    cases hu.symm.trans hu'
    exact ih (has.2 u hu) h

theorem Along.left {s : σ} {as bs : List α} (h : Along step C s (as ++ bs)) : Along step C s as := by
  induction as generalizing s with
  | nil => trivial
  | cons a as ih => exact ⟨h.1, fun t ht => ih (h.2 t ht)⟩

theorem Along.right {s t : σ} {as bs : List α} (h : Along step C s (as ++ bs)) (hrun : run step s as = some t) :
    Along step C t bs := by
  induction as generalizing s with
  | nil => cases hrun; exact h
  | cons a as ih =>
    obtain ⟨u, hu, hrun⟩ := run_cons.1 hrun
    exact ih (h.2 u hu) hrun

/-- What relates the states before and after every step relates those before and after a run. -/
theorem run_related {R : σ → σ → Prop} (hrefl : ∀ s, R s s) (htrans : ∀ {s t u}, R s t → R t u → R s u)
    (hI : ∀ {s a s'}, I s → C s a → step s a = some s' → I s' ∧ R s s') {s s' : σ} {as : List α} (hs : I s)
    (hC : Along step C s as) (h : run step s as = some s') : I s' ∧ R s s' := by
  induction as generalizing s with
  | nil => cases h; exact ⟨hs, hrefl _⟩
  | cons a as ih =>
    obtain ⟨t, ht, h⟩ := run_cons.1 h
    obtain ⟨hIt, hst⟩ := hI hs hC.1 ht
    obtain ⟨hIs', hts'⟩ := ih hIt (hC.2 t ht) h
    exact ⟨hIs', htrans hst hts'⟩

/-- Some run whose steps are taken under `C` leads from `s` to `s'`. -/
def Reaches (step : σ → α → Option σ) (C : σ → α → Prop) (s s' : σ) : Prop :=
  ∃ as, Along step C s as ∧ run step s as = some s'

theorem Reaches.refl (step : σ → α → Option σ) (C : σ → α → Prop) (s : σ) : Reaches step C s s :=
  ⟨[], trivial, rfl⟩

theorem Reaches.trans {s t u : σ} (h₁ : Reaches step C s t) (h₂ : Reaches step C t u) : Reaches step C s u := by
  obtain ⟨as, has, h₁⟩ := h₁
  obtain ⟨bs, hbs, h₂⟩ := h₂
  exact ⟨as ++ bs, has.append h₁ hbs, run_append.2 ⟨t, h₁, h₂⟩⟩

theorem Reaches.head {s t u : σ} {a : α} (hC : C s a) (ha : step s a = some t) (h : Reaches step C t u) :
    Reaches step C s u := by
  obtain ⟨as, has, h⟩ := h
  refine ⟨a :: as, ⟨hC, fun t' ht' => ?_⟩, run_cons.2 ⟨t, ha, h⟩⟩
  cases ha.symm.trans ht'
  exact has

/-- The unconditional form of `run_invariant`. -/
theorem run_invariant' (hI : ∀ {s a s'}, I s → step s a = some s' → I s') {s s' : σ} {as : List α}
    (hs : I s) (h : run step s as = some s') : I s' :=
  run_invariant (C := fun _ _ => True) (fun h _ => hI h) hs (Along.true step s as) h

/-- A sequence that at every step stays where it is or decreases stays for good from some point on. -/
theorem eventually_stable {ι : Type*} [LT ι] [WellFoundedLT ι] (m : σ → ι) {s : ℕ → σ}
    (h : ∀ n, s (n + 1) = s n ∨ m (s (n + 1)) < m (s n)) : ∃ N, ∀ n ≥ N, s n = s N := by
  obtain ⟨_, ⟨N, rfl⟩, hmin⟩ :=
    (wellFounded_lt (α := ι)).has_min (Set.range fun n => m (s n)) ⟨_, 0, rfl⟩
  refine ⟨N, fun n hn => ?_⟩
  induction n, hn using Nat.le_induction with
  | base => rfl
  | succ n hn ih =>
    rcases h n with h | h
    · exact h.trans ih
    · rw [ih] at h
      exact absurd h (hmin _ ⟨n + 1, rfl⟩)

/-- A rank that does not rise and falls at every turn allows for finitely many turns. -/
theorem turns_end (rank : ℕ → ℕ) (turn : ℕ → Prop) {n : ℕ} (hle : ∀ m ≥ n, rank (m + 1) ≤ rank m)
    (hlt : ∀ m ≥ n, turn m → rank (m + 1) < rank m) : ∃ m ≥ n, ∀ k ≥ m, ¬ turn k := by
  induction hr : rank n using Nat.strong_induction_on generalizing n with
  | _ r ih =>
    by_cases hturn : ∃ k ≥ n, turn k
    · -- the rank is lower after the turn
      obtain ⟨k, hk, hturn⟩ := hturn
      have hdown : ∀ j ≥ n, rank j ≤ rank n := by
        intro j hj
        induction j, hj using Nat.le_induction with
        | base => exact Nat.le_refl _
        | succ j hj ih => exact (hle j hj).trans ih
      have hfall : rank (k + 1) < r := hr ▸ (hlt k hk hturn).trans_le (hdown k hk)
      have hlater : k + 1 ≥ n := Nat.le_succ_of_le hk
      obtain ⟨m, hm, hend⟩ := ih _ hfall (fun j hj => hle j (hlater.trans hj)) (fun j hj => hlt j (hlater.trans hj)) rfl
      exact ⟨m, hlater.trans hm, hend⟩
    · exact ⟨n, Nat.le_refl n, fun k hk h => hturn ⟨k, hk, h⟩⟩

/-- What gets its turns as long as it lasts, and has a rank that comes down with every turn in the end, does not last. -/
theorem ends_of_turns {P turn : ℕ → Prop} (rank : ℕ → ℕ) {n : ℕ}
    (hturns : (∀ k ≥ n, P k) → ∀ m ≥ n, ∃ k ≥ m, turn k)
    (hrank : (∀ k ≥ n, P k) →
      ∃ N, ∀ k ≥ n, k ≥ N → rank (k + 1) ≤ rank k ∧ (turn k → rank (k + 1) < rank k)) :
    ∃ k ≥ n, ¬ P k := by
  by_contra! hP
  obtain ⟨N, hrank⟩ := hrank hP
  have hrank' : ∀ k ≥ n + N, rank (k + 1) ≤ rank k ∧ (turn k → rank (k + 1) < rank k) :=
    fun k hk => hrank k (by omega) (by omega)
  obtain ⟨m, hm, hend⟩ := turns_end rank turn (fun k hk => (hrank' k hk).1) fun k hk => (hrank' k hk).2
  obtain ⟨k, hk, hturn⟩ := hturns hP m (by omega)
  exact hend k hk hturn

/-- A system whose steps are steps of another one, or stand still there, has its runs. -/
theorem run_simulates {τ β : Type*} {step' : τ → β → Option τ} (f : σ → τ)
    (hsim : ∀ {s a s'}, step s a = some s' → f s' = f s ∨ ∃ b, step' (f s) b = some (f s')) {s s' : σ} {as : List α}
    (h : run step s as = some s') : ∃ bs, run step' (f s) bs = some (f s') := by
  induction as generalizing s with
  | nil => cases h; exact ⟨[], rfl⟩
  | cons a as ih =>
    obtain ⟨t, ht, h⟩ := run_cons.1 h
    obtain ⟨bs, hbs⟩ := ih h
    rcases hsim ht with he | ⟨b, hb⟩
    · exact ⟨bs, he ▸ hbs⟩
    · exact ⟨b :: bs, run_cons.2 ⟨f t, hb, hbs⟩⟩

/-! ### Running on -/

/-- The run of `as`, and then the action `idle` for ever. -/
def forever (step : σ → α → Option σ) (idle : α) : List α → σ → ℕ → σ
  | _, s, 0 => s
  | as, s, n + 1 =>
    match step s (as.headD idle) with
    | some s' => forever step idle as.tail s' n
    | none => s

section Forever

variable {idle : α} {s s' : σ} {as : List α}

private theorem forever_succ (h : step s (as.headD idle) = some s') (n : ℕ) :
    forever step idle as s (n + 1) = forever step idle as.tail s' n := by
  simp only [forever, h]

private theorem step_headD (hidle : ∀ s, (step s idle).isSome) (h : (run step s as).isSome) :
    ∃ t, step s (as.headD idle) = some t ∧ (run step t as.tail).isSome := by
  cases as with
  | nil =>
    obtain ⟨t, ht⟩ := Option.isSome_iff_exists.1 (hidle s)
    exact ⟨t, ht, rfl⟩
  | cons a as =>
    obtain ⟨s', hs'⟩ := Option.isSome_iff_exists.1 h
    obtain ⟨t, ht, hrun⟩ := run_cons.1 hs'
    exact ⟨t, ht, by rw [List.tail_cons, hrun]; rfl⟩

private theorem getD_succ_tail (as : List α) (n : ℕ) : as.getD (n + 1) idle = as.tail.getD n idle := by
  cases as <;> rfl

private theorem getD_zero_headD (as : List α) : as.getD 0 idle = as.headD idle := by
  cases as <;> rfl

/-- It moves at every step, when `as` is a run and `idle` is always possible. -/
theorem forever_moves (hidle : ∀ s, (step s idle).isSome) (h : (run step s as).isSome) (n : ℕ) :
    step (forever step idle as s n) (as.getD n idle) = some (forever step idle as s (n + 1)) := by
  induction n generalizing s as with
  | zero =>
    obtain ⟨t, ht, -⟩ := step_headD hidle h
    rw [forever_succ ht, getD_zero_headD]
    exact ht
  | succ n ih =>
    obtain ⟨t, ht, hrun⟩ := step_headD hidle h
    rw [forever_succ ht, forever_succ ht, getD_succ_tail]
    exact ih hrun

/-- Every step is taken under a condition that the steps of `as` are taken under, and that `idle` always meets. -/
theorem forever_along (hidle : ∀ s, (step s idle).isSome ∧ C s idle) (h : (run step s as).isSome)
    (hC : Along step C s as) (n : ℕ) : C (forever step idle as s n) (as.getD n idle) := by
  induction n generalizing s as with
  | zero =>
    cases as with
    | nil => exact (hidle s).2
    | cons a as => exact hC.1
  | succ n ih =>
    obtain ⟨t, ht, hrun⟩ := step_headD (fun s => (hidle s).1) h
    rw [forever_succ ht, getD_succ_tail]
    refine ih hrun ?_
    cases as with
    | nil => trivial
    | cons a as => exact hC.2 t ht

end Forever

/-! ### Observers -/

section Watched

variable {ω : Type*} {watch : σ → α → ω → ω}

/-- The system with an observer, whose record after a step depends on the state before it and the action. -/
def watched (step : σ → α → Option σ) (watch : σ → α → ω → ω) (x : σ × ω) (a : α) : Option (σ × ω) :=
  (step x.1 a).map fun s' => (s', watch x.1 a x.2)

theorem watched_eq_some {x y : σ × ω} {a : α} :
    watched step watch x a = some y ↔ step x.1 a = some y.1 ∧ y.2 = watch x.1 a x.2 := by
  obtain ⟨s', o'⟩ := y
  simp only [watched, Option.map_eq_some_iff, Prod.mk.injEq]
  constructor
  · rintro ⟨t, ht, rfl, rfl⟩
    exact ⟨ht, rfl⟩
  · rintro ⟨hs, ho⟩
    exact ⟨s', hs, rfl, ho.symm⟩

/-- What every step keeps, together with what the observer notes of it, is kept by the watched system. -/
theorem watched_invariant {J : σ × ω → Prop} {D : σ × ω → α → Prop}
    (hJ : ∀ {s a s' o}, J (s, o) → D (s, o) a → step s a = some s' → J (s', watch s a o)) {x y : σ × ω} {a : α}
    (hx : J x) (hD : D x a) (h : watched step watch x a = some y) : J y := by
  obtain ⟨hstep, ho⟩ := watched_eq_some.1 h
  obtain ⟨s', o'⟩ := y
  cases ho
  exact hJ hx hD hstep

/-- An observer changes nothing: the runs are those of the system alone. -/
theorem run_watched (x : σ × ω) (as : List α) : (run (watched step watch) x as).map Prod.fst = run step x.1 as := by
  induction as generalizing x with
  | nil => rfl
  | cons a as ih =>
    simp only [run, watched]
    cases step x.1 a with
    | none => rfl
    | some s' => exact ih (s', watch x.1 a x.2)

theorem along_watched {x : σ × ω} {as : List α} :
    Along (watched step watch) (fun x a => C x.1 a) x as ↔ Along step C x.1 as := by
  induction as generalizing x with
  | nil => exact Iff.rfl
  | cons a as ih =>
    refine and_congr_right fun _ => ⟨fun h s' hs' => ?_, fun h y hy => ?_⟩
    · exact ih.1 (h (s', watch x.1 a x.2) (watched_eq_some.2 ⟨hs', rfl⟩))
    · exact ih.2 (h y.1 (watched_eq_some.1 hy).1)

theorem Along.watched {x : σ × ω} {as : List α} (h : Along step C x.1 as) :
    Along (watched step watch) (fun x a => C x.1 a) x as :=
  along_watched.2 h

end Watched

end Transition
