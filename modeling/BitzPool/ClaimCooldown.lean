import BitzPool.ClaimQueued
import BitzPool.ClaimBooked

/-!
# The cooldown of claims

Both claim handlers look up the miner's last row in `claims` and refuse a claim within half an hour of it.  The look and
the insertion are separate steps, the row is written only when the claim has been paid, and a lookup that fails counts as
no claim at all.  `cooldown_kept_iff` says what follows: the cooldown is kept exactly as long as no claim is accepted
while a row its handler has not seen is less than half an hour old.  `watchLooks` notes how many rows each handler has
seen; rows are only appended, so these are the first ones.
-/

namespace BitzPool

open Keyed Database Transition Update

theorem coolingDown_eq_false {now createdAt : ℕ} : coolingDown now createdAt = false ↔ createdAt + 1800 < now := by
  simp only [coolingDown, decide_eq_false_iff_not]
  omega

namespace Database

/-- The row belongs to the miner with this pubkey. -/
def Owns (db : Database) (k : Pubkey) (row : ClaimRow) : Prop := ∃ m ∈ db.miners.find? k, m.id = row.minerId

instance (db : Database) (k : Pubkey) (row : ClaimRow) : Decidable (db.Owns k row) :=
  inferInstanceAs (Decidable (∃ m ∈ db.miners.find? k, m.id = row.minerId))

/-- None of the rows is a claim of the miner in the last half hour. -/
def Rested (db : Database) (now : ℕ) (k : Pubkey) (rows : List ClaimRow) : Prop :=
  ∀ row ∈ rows, db.Owns k row → coolingDown now row.createdAt = false

instance (db : Database) (now : ℕ) (k : Pubkey) (rows : List ClaimRow) : Decidable (db.Rested now k rows) :=
  inferInstanceAs (Decidable (∀ row ∈ rows, db.Owns k row → coolingDown now row.createdAt = false))

/-- Rows are numbered in the order of their times, which have passed. -/
structure Dated (db : Database) (now : ℕ) : Prop where
  sorted : db.claims.Pairwise fun row row' => row.createdAt ≤ row'.createdAt
  past : ∀ row ∈ db.claims, row.createdAt ≤ now

/-- Two claims of one miner are more than half an hour apart. -/
def Spaced (db : Database) : Prop :=
  db.claims.Pairwise fun row row' => row.minerId = row'.minerId → row.createdAt + 1800 < row'.createdAt

variable {db db' : Database} {now now' : ℕ} {k : Pubkey} {rows : List ClaimRow}

theorem Rested.later (h : db.Rested now k rows) (hnow : now ≤ now') : db.Rested now' k rows := by
  intro row hrow howns
  have hold := coolingDown_eq_false.1 (h row hrow howns)
  exact coolingDown_eq_false.2 (by omega)

/-- The miner was known before, so that the rows are owned by the same. -/
theorem Rested.extends (h : db.Rested now k rows) (hext : db.Extends db') {m : Miner}
    (hm : db.miners.find? k = some m) : db'.Rested now k rows := by
  rintro row hrow ⟨m', hm', hid⟩
  rw [Option.mem_def, hext.miner hm] at hm'
  cases hm'
  exact h row hrow ⟨m, hm, hid⟩

theorem Rested.sub {rows' : List ClaimRow} (h : db.Rested now k rows) (hsub : rows' ⊆ rows) : db.Rested now k rows' :=
  fun row hrow => h row (hsub hrow)

/-- What a lookup that is executed finds, or does not find, is about all rows. -/
theorem rested_of_lastClaim {m : Miner} (hdated : db.Dated now') (hm : db.miners.find? k = some m)
    (h : ∀ createdAt, getLastClaim .executed m.id db = .ok createdAt → coolingDown now createdAt = false) :
    db.Rested now k db.claims := by
  rintro row hrow ⟨m', hm', hid⟩
  rw [Option.mem_def, hm] at hm'
  cases hm'
  have hmem : row ∈ db.claims.reverse := List.mem_reverse.2 hrow
  have hsorted : db.claims.reverse.Pairwise fun row row' => row'.createdAt ≤ row.createdAt :=
    List.pairwise_reverse.2 hdated.sorted
  rcases hfind : db.claims.reverse.find? fun c => c.minerId = m.id with _ | last
  · have hnone := List.find?_eq_none.1 hfind row hmem
    exact absurd hid.symm (by simpa using hnone)
  · have hlast : coolingDown now last.createdAt = false := by
      refine h last.createdAt ?_
      simp [getLastClaim, query, interact, select, hfind]
    obtain ⟨-, l₁, l₂, hsplit, hbefore⟩ := List.find?_eq_some_iff_append.1 hfind
    rw [hsplit] at hmem hsorted
    have hle : row.createdAt ≤ last.createdAt := by
      rcases List.mem_append.1 hmem with hmem | hmem
      · have hne := hbefore row hmem
        exact absurd hid.symm (by simpa using hne)
      · rcases List.mem_cons.1 hmem with rfl | hmem
        · exact Nat.le_refl _
        · exact List.rel_of_pairwise_cons (List.pairwise_append.1 hsorted).2.1 hmem
    have hold := coolingDown_eq_false.1 hlast
    exact coolingDown_eq_false.2 (by omega)

end Database

/-- The miner of a request that is not answered. -/
def RequestPc.miner? : RequestPc → Option Pubkey
  | .directRewards pubkey | .directLastClaim pubkey _ | .directTokenAccount pubkey _ => some pubkey
  | .v2Queue p | .v2Rewards p | .v2LastClaim p _ | .v2TokenAccount p => some p.minerPubkey
  | .insert ins _ => some ins.minerPubkey
  | .answered _ => none

/-- The id under which a handler is about to look for the last claim, with the miner's pubkey. -/
def RequestPc.looksFor? : RequestPc → Option (Pubkey × MinerId)
  | .directLastClaim pubkey rewards => some (pubkey, rewards.minerId)
  | .v2LastClaim p rewards => some (p.minerPubkey, rewards.minerId)
  | _ => none

namespace Treasury

/-- An accepted claim is of a miner without a claim in the last half hour. -/
def Cooled (s : Treasury) (a : Action) : Prop :=
  ∀ ins ∈ s.insertion a, s.db.Rested s.now ins.minerPubkey s.db.claims

/-- How many rows of `claims` each handler has seen: all there were when its lookup was executed, none if it failed. -/
def watchLooks (s : Treasury) : Action → List ℕ → List ℕ
  | .request _, w => w ++ [0]
  | .requestStep i (.call .executed), w =>
    if (s.requests[i]?.bind RequestPc.looksFor?).isSome then w.set i s.db.claims.length else w
  | _, w => w

/-- The handler that an action moves. -/
def Action.handler? : Action → Option ℕ
  | .requestStep i _ => some i
  | _ => none

/-- An accepted claim is of a miner without a claim in the last half hour among the rows its handler has not seen. -/
def Looked (x : Treasury × List ℕ) (a : Action) : Prop :=
  ∀ ins ∈ x.1.insertion a, ∀ i ∈ a.handler?, ∀ n ∈ x.2[i]?,
    x.1.db.Rested x.1.now ins.minerPubkey (x.1.db.claims.drop n)

instance (x : Treasury × List ℕ) (a : Action) : Decidable (Looked x a) :=
  inferInstanceAs (Decidable (∀ ins ∈ x.1.insertion a, ∀ i ∈ a.handler?, ∀ n ∈ x.2[i]?,
    x.1.db.Rested x.1.now ins.minerPubkey (x.1.db.claims.drop n)))

variable {su : Setup} {s s' : Treasury} {a : Action} {w : List ℕ}

theorem Step.now_le (h : Step su s a s') : s.now ≤ s'.now := by
  cases h with
  | tick => exact Nat.le_succ _
  | _ => exact Nat.le_refl _

/-- Rows of `claims` are written by `claim_system` only, at the end of a booking. -/
theorem Step.claims (h : Step su s a s') : s'.db.claims = s.db.claims ∨ ∃ tx claim, s.claim = .addClaim tx claim ∧
    s'.claim = .remove tx ∧ s'.queue = s.queue ∧ s'.requests = s.requests ∧ a.handler? = none ∧
      s'.db.claims = s.db.claims ++ [{ claim with createdAt := s.now }] := by
  cases h with
  | @claim input m pc hstep =>
    generalize hpc : s.claim = pc₀ at hstep
    cases hstep with
    | addClaim => exact Or.inr ⟨_, _, rfl, rfl, rfl, rfl, rfl, rfl⟩
    | @decrease _ tx minerId _ db' hq =>
      refine Or.inl ?_
      simp only
      unfold decreaseQuery at hq
      split at hq
      · cases hq
        rfl
      · split at hq <;> cases hq
        rfl
    | addTxn hl => exact Or.inl hl.claims
    | _ => exact Or.inl rfl
  | payout _ hstep => exact Or.inl (sameBooks_of_payoutStep hstep).claims
  | mineCall hstep => exact Or.inl (sameBooks_of_mineStep hstep).claims
  | signup => exact Or.inl (sameBooks_of_signup ..).claims
  | _ => exact Or.inl rfl

theorem dated_of_step (hs : s.db.Dated s.now) (h : Step su s a s') : s'.db.Dated s'.now := by
  have hnow := h.now_le
  rcases h.claims with hclaims | ⟨tx, claim, -, -, -, -, -, hclaims⟩
  · refine ⟨hclaims ▸ hs.sorted, fun row hrow => ?_⟩
    rw [hclaims] at hrow
    exact (hs.past row hrow).trans hnow
  · constructor
    · rw [hclaims, List.pairwise_append]
      refine ⟨hs.sorted, List.pairwise_singleton _ _, fun row hrow row' hrow' => ?_⟩
      rw [List.mem_singleton.1 hrow']
      exact hs.past row hrow
    · intro row hrow
      rw [hclaims] at hrow
      rcases List.mem_append.1 hrow with hrow | hrow
      · exact (hs.past row hrow).trans hnow
      · rw [List.mem_singleton.1 hrow]
        exact hnow

/-! ### What the handlers have seen -/

/-- The rows a handler has seen are old, and what it looks for is its miner's. -/
structure Observant (s : Treasury) (w : List ℕ) : Prop where
  dated : s.db.Dated s.now
  length : w.length = s.requests.length
  seen : ∀ {i : ℕ} {pc : RequestPc} {k : Pubkey} {n : ℕ}, s.requests[i]? = some pc → pc.miner? = some k →
    w[i]? = some n → s.db.Rested s.now k (s.db.claims.take n)
  known : ∀ {i : ℕ} {pc : RequestPc} {k : Pubkey} {n : ℕ}, s.requests[i]? = some pc → pc.miner? = some k →
    w[i]? = some n → n = 0 ∨ n ≤ s.db.claims.length ∧ ∃ m, s.db.miners.find? k = some m
  looksFor : ∀ {i : ℕ} {pc : RequestPc} {k : Pubkey} {id : MinerId}, s.requests[i]? = some pc →
    pc.looksFor? = some (k, id) → ∃ m, s.db.miners.find? k = some m ∧ m.id = id

/-- Steps of the other tasks. -/
private theorem Observant.frame (hs : s.Observant w) (h : Step su s a s') (hrequests : s'.requests = s.requests) :
    s'.Observant w where
  dated := dated_of_step hs.dated h
  length := hs.length.trans (congrArg List.length hrequests.symm)
  seen {i pc k n} hpc hk hn := by
    rw [hrequests] at hpc
    have hseen := hs.seen hpc hk hn
    rcases hs.known hpc hk hn with rfl | ⟨hle, m, hm⟩
    · intro row hrow
      simp at hrow
    · have htake : s'.db.claims.take n = s.db.claims.take n := by
        rcases h.claims with hclaims | ⟨_, _, -, -, -, -, -, hclaims⟩
        · rw [hclaims]
        · rw [hclaims, List.take_append_of_le_length hle]
      rw [htake]
      exact (hseen.later h.now_le).extends h.extends hm
  known hpc hk hn := by
    rw [hrequests] at hpc
    refine (hs.known hpc hk hn).imp_right fun ⟨hle, m, hm⟩ => ⟨?_, m, h.extends.miner hm⟩
    rcases h.claims with hclaims | ⟨_, _, -, -, -, -, -, hclaims⟩
    · rw [hclaims]
      exact hle
    · rw [hclaims, List.length_append]
      exact Nat.le_add_right_of_le hle
  looksFor hpc hid := by
    rw [hrequests] at hpc
    obtain ⟨m, hm, hid⟩ := hs.looksFor hpc hid
    exact ⟨m, h.extends.miner hm, hid⟩

theorem miner?_of_requestStep {db : Database} {queue : ClaimsQueue} {now : ℕ} {i : RequestInput} {pc pc' : RequestPc}
    {ins : Option Insertion} {k : Pubkey} (h : RequestStep db queue now i pc pc' ins) (hk : pc'.miner? = some k) :
    pc.miner? = some k := by
  cases h with
  | refuse | insert => cases hk
  | _ => exact hk

private theorem rewardOf_eq_some {db : Database} {k : Pubkey} {rewards : Reward} (h : db.rewardOf k = some rewards) :
    ∃ m, db.miners.find? k = some m ∧ m.id = rewards.minerId := by
  obtain ⟨m, hm, hrewards⟩ := Option.bind_eq_some_iff.1 h
  exact ⟨m, hm, (Table.find?_eq_some.1 hrewards).2.symm⟩

theorem looksFor?_of_requestStep {db : Database} {queue : ClaimsQueue} {now : ℕ} {i : RequestInput} {pc pc' : RequestPc}
    {ins : Option Insertion} {k : Pubkey} {id : MinerId} (h : RequestStep db queue now i pc pc' ins)
    (hk : pc'.looksFor? = some (k, id)) : ∃ m, db.miners.find? k = some m ∧ m.id = id := by
  cases h with
  | directRewards hr | v2Rewards hr =>
    cases hk
    exact rewardOf_eq_some hr
  | _ => cases hk

/-- A handler that has looked and goes on has seen that its miner rests. -/
private theorem rested_of_look {db : Database} {queue : ClaimsQueue} {now now' : ℕ} {pc pc' : RequestPc}
    {ins : Option Insertion} {k k' : Pubkey} {m : Miner} (hdated : db.Dated now')
    (h : RequestStep db queue now (.call .executed) pc pc' ins) (hlooks : pc.looksFor? = some (k, m.id))
    (hm : db.miners.find? k = some m) (hk : pc'.miner? = some k') :
    k' = k ∧ db.Rested now k db.claims := by
  cases h with
  | directLastClaim hcool | v2LastClaim hcool =>
    cases hk
    obtain ⟨rfl, hid⟩ := Prod.mk.inj (Option.some.inj hlooks)
    rw [hid] at hcool
    exact ⟨rfl, Database.rested_of_lastClaim hdated hm hcool⟩
  | refuse => cases hk
  | _ => cases hlooks

private theorem watchLooks_of_not_look {i : ℕ} {input : RequestInput} {pc : RequestPc} (hpc : s.requests[i]? = some pc)
    (h : input ≠ .call .executed ∨ pc.looksFor? = none) : s.watchLooks (.requestStep i input) w = w := by
  unfold watchLooks
  split
  · next he => cases he
  · next he =>
    cases he
    rw [if_neg]
    rw [hpc, Option.bind_some]
    rcases h with h | h
    · exact absurd rfl h
    · simp [h]
  · rfl

section Move

variable {i : ℕ} {input : RequestInput} {pc pc' : RequestPc} {ins : Option Insertion}
  (hpc : s.requests[i]? = some pc) (hstep : RequestStep s.db s.queue s.now input pc pc' ins) (hdb : s'.db = s.db)
  (hrequests : s'.requests = s.requests.set i pc')

include hstep hdb hrequests

private theorem Observant.looksFor_moved (hs : s.Observant w) {j : ℕ} {pc₁ : RequestPc} {k : Pubkey} {id : MinerId}
    (hj : s'.requests[j]? = some pc₁) (hk : pc₁.looksFor? = some (k, id)) :
    ∃ m, s'.db.miners.find? k = some m ∧ m.id = id := by
  rw [hrequests] at hj
  rw [hdb]
  rcases getElem?_set_cases hj with ⟨rfl, rfl⟩ | ⟨-, hj⟩
  · exact looksFor?_of_requestStep hstep hk
  · exact hs.looksFor hj hk

include hpc

/-- A handler moves on without a look. -/
private theorem Observant.goOn (hs : s.Observant w) (hnow : s'.now = s.now) : s'.Observant w := by
  have hold : ∀ {j : ℕ} {pc₁ : RequestPc} {k : Pubkey}, s'.requests[j]? = some pc₁ → pc₁.miner? = some k →
      ∃ pc₀, s.requests[j]? = some pc₀ ∧ pc₀.miner? = some k := by
    intro j pc₁ k hj hk
    rw [hrequests] at hj
    rcases getElem?_set_cases hj with ⟨rfl, rfl⟩ | ⟨-, hj⟩
    · exact ⟨pc, hpc, miner?_of_requestStep hstep hk⟩
    · exact ⟨pc₁, hj, hk⟩
  refine ⟨?_, ?_, fun {j pc₁ k n} hj hk hn => ?_, fun {j pc₁ k n} hj hk hn => ?_,
    fun hj hk => hs.looksFor_moved hstep hdb hrequests hj hk⟩
  · rw [hdb, hnow]
    exact hs.dated
  · rw [hrequests, List.length_set]
    exact hs.length
  · obtain ⟨pc₀, hpc₀, hk₀⟩ := hold hj hk
    rw [hdb, hnow]
    exact hs.seen hpc₀ hk₀ hn
  · obtain ⟨pc₀, hpc₀, hk₀⟩ := hold hj hk
    rw [hdb]
    exact hs.known hpc₀ hk₀ hn

/-- A handler looks for the last claim: from then on it has seen all rows. -/
private theorem Observant.look (hs : s.Observant w) (hnow : s'.now = s.now) (hinput : input = .call .executed)
    {k₀ : Pubkey} {id : MinerId} (hlook : pc.looksFor? = some (k₀, id)) :
    s'.Observant (w.set i s.db.claims.length) := by
  subst hinput
  obtain ⟨m, hm, rfl⟩ := hs.looksFor hpc hlook
  refine ⟨?_, ?_, fun {j pc₁ k n} hj hk hn => ?_, fun {j pc₁ k n} hj hk hn => ?_,
    fun hj hk => hs.looksFor_moved hstep hdb hrequests hj hk⟩
  · rw [hdb, hnow]
    exact hs.dated
  · rw [List.length_set, hrequests, List.length_set]
    exact hs.length
  · rw [hrequests] at hj
    rw [hdb, hnow]
    rcases getElem?_set_cases hj with ⟨rfl, rfl⟩ | ⟨hne, hj⟩
    · obtain ⟨rfl, hrested⟩ := rested_of_look hs.dated hstep hlook hm hk
      exact hrested.sub (List.take_subset _ _)
    · rw [List.getElem?_set_ne (Ne.symm hne)] at hn
      exact hs.seen hj hk hn
  · rw [hrequests] at hj
    rw [hdb]
    rcases getElem?_set_cases hj with ⟨rfl, rfl⟩ | ⟨hne, hj⟩
    · obtain ⟨rfl, -⟩ := rested_of_look hs.dated hstep hlook hm hk
      rcases getElem?_set_cases hn with ⟨-, rfl⟩ | ⟨hne, -⟩
      · exact Or.inr ⟨Nat.le_refl _, m, hm⟩
      · exact absurd rfl hne
    · rw [List.getElem?_set_ne (Ne.symm hne)] at hn
      exact hs.known hj hk hn

private theorem Observant.move (hs : s.Observant w) (hnow : s'.now = s.now) :
    s'.Observant (s.watchLooks (.requestStep i input) w) := by
  by_cases hlook : input = .call .executed ∧ pc.looksFor?.isSome
  · obtain ⟨rfl, hlook⟩ := hlook
    obtain ⟨⟨k₀, id⟩, hlook⟩ := Option.isSome_iff_exists.1 hlook
    have hw : s.watchLooks (.requestStep i (.call .executed)) w = w.set i s.db.claims.length := by
      simp [watchLooks, hpc, hlook]
    rw [hw]
    exact hs.look hpc hstep hdb hrequests hnow rfl hlook
  · have hw : s.watchLooks (.requestStep i input) w = w := by
      refine watchLooks_of_not_look hpc ?_
      rcases not_and_or.1 hlook with h | h
      · exact Or.inl h
      · exact Or.inr (Option.not_isSome_iff_eq_none.1 h)
    rw [hw]
    exact hs.goOn hpc hstep hdb hrequests hnow

end Move

theorem Observant.step (hs : s.Observant w) (h : Step su s a s') : s'.Observant (s.watchLooks a w) := by
  have hstep := h
  cases h with
  | check hpc hcheck => exact hs.move hpc hcheck rfl rfl rfl
  | @insert i ins answer hpc =>
    have hinsert : RequestStep s.db s.queue s.now .insert (.insert ins answer) (.answered answer) (some ins) := .insert
    exact hs.move hpc hinsert rfl rfl rfl
  | @request r =>
    have hlooks : (r.arrive su.verify s.now).looksFor? = none := by
      rcases r.arrive_cases su.verify s.now with ⟨pubkey, -, he⟩ | ⟨p, -, he⟩ | ⟨answer, he⟩ <;> rw [he] <;> rfl
    refine ⟨hs.dated, ?_, fun {j pc₁ k n} hj hk hn => ?_, fun {j pc₁ k n} hj hk hn => ?_, fun {j pc₁ k id} hj hk => ?_⟩
    · simp [watchLooks, hs.length]
    · rcases getElem?_concat_cases hj with hj | ⟨rfl, rfl⟩
      · have hlt := (List.getElem?_eq_some_iff.1 hj).1
        rw [watchLooks, List.getElem?_append_left (hs.length.symm ▸ hlt)] at hn
        exact hs.seen hj hk hn
      · rw [watchLooks, ← hs.length, List.getElem?_concat_length] at hn
        cases hn
        rintro row hrow
        simp at hrow
    · rcases getElem?_concat_cases hj with hj | ⟨rfl, rfl⟩
      · have hlt := (List.getElem?_eq_some_iff.1 hj).1
        rw [watchLooks, List.getElem?_append_left (hs.length.symm ▸ hlt)] at hn
        exact hs.known hj hk hn
      · rw [watchLooks, ← hs.length, List.getElem?_concat_length] at hn
        cases hn
        exact Or.inl rfl
    · rcases getElem?_concat_cases hj with hj | ⟨rfl, rfl⟩
      · exact hs.looksFor hj hk
      · rw [hlooks] at hk
        cases hk
  | _ => exact hs.frame hstep rfl

/-- The rows a handler has seen do not decide: those that it has not seen do. -/
private theorem cooled_iff (hs : s.Observant w) : s.Cooled a ↔ Looked (s, w) a := by
  constructor
  · intro h ins hins i hi n hn
    exact (h ins hins).sub (List.drop_subset _ _)
  · intro h ins hins
    obtain ⟨i, answer, rfl, hpc⟩ := exists_of_insertion hins
    have hlt : i < w.length := hs.length.symm ▸ (List.getElem?_eq_some_iff.1 hpc).1
    have hn : w[i]? = some w[i] := List.getElem?_eq_getElem hlt
    have hseen := hs.seen hpc (k := ins.minerPubkey) rfl hn
    have hunseen := h ins hins i rfl w[i] hn
    intro row hrow
    rw [← List.take_append_drop w[i] s.db.claims] at hrow
    rcases List.mem_append.1 hrow with hrow | hrow
    · exact hseen row hrow
    · exact hunseen row hrow

/-! ### Claims stay apart -/

/-- The rows are spaced, and whoever is in the queue or being paid rests, but for the miner who was just booked. -/
structure Apart (s : Treasury) : Prop where
  spaced : s.db.Spaced
  queue : ∀ {k item}, s.queue.lookup k = some item → (∀ tx, s.claim = .remove tx → tx.minerPubkey ≠ k) →
    s.db.Rested s.now k s.db.claims
  claim : ∀ {k item}, s.claim.item? = some (k, item) → (∀ tx, s.claim ≠ .remove tx) → s.db.Rested s.now k s.db.claims

/-- Another row of `claims`, of another miner, changes nothing for this one. -/
private theorem rested_append {db : Database} {now : ℕ} {k k' : Pubkey} {row : ClaimRow} (hne : k' ≠ k)
    (howns : db.Owns k row) (h : db.Rested now k' db.claims) : db.Rested now k' (db.claims ++ [row]) := by
  intro row' hrow' howns'
  rcases List.mem_append.1 hrow' with hrow' | hrow'
  · exact h row' hrow' howns'
  · rw [List.mem_singleton.1 hrow'] at howns'
    obtain ⟨m, hm, hid⟩ := howns
    obtain ⟨m', hm', hid'⟩ := howns'
    exact absurd (Database.pubkey_of_id hm' hm (hid'.trans hid.symm)) hne

/-- Steps that write no row. -/
private theorem Apart.frame (hs : s.Apart) (h : Step su s a s') (hclaims : s'.db.claims = s.db.claims)
    (hqueue : ∀ {k item}, s'.queue.lookup k = some item → (∀ tx, s'.claim = .remove tx → tx.minerPubkey ≠ k) →
      s.db.Registered k ∧ s.db.Rested s.now k s.db.claims)
    (hclaim : ∀ {k item}, s'.claim.item? = some (k, item) → (∀ tx, s'.claim ≠ .remove tx) →
      s.db.Registered k ∧ s.db.Rested s.now k s.db.claims) : s'.Apart := by
  have hkeep : ∀ {k}, s.db.Registered k ∧ s.db.Rested s.now k s.db.claims → s'.db.Rested s'.now k s'.db.claims := by
    intro k ⟨hregistered, hrested⟩
    obtain ⟨m, hm, -⟩ := registered_iff.1 hregistered
    rw [hclaims]
    exact (hrested.later h.now_le).extends h.extends hm
  refine ⟨?_, fun hk hne => hkeep (hqueue hk hne), fun hk hne => hkeep (hclaim hk hne)⟩
  unfold Database.Spaced
  rw [hclaims]
  exact hs.spaced

/-- Steps that keep the queue and what `claim_system` works on. -/
private theorem Apart.same (hs : s.Apart) (hknown : s.Known) (h : Step su s a s') (hclaims : s'.db.claims = s.db.claims)
    (hqueue : s'.queue = s.queue) (hclaim : s'.claim = s.claim) : s'.Apart := by
  refine hs.frame h hclaims (fun hk hne => ?_) (fun hk hne => ?_)
  · rw [hqueue] at hk
    rw [hclaim] at hne
    exact ⟨hknown.queue hk, hs.queue hk hne⟩
  · rw [hclaim] at hk hne
    exact ⟨hknown.claim hk, hs.claim hk hne⟩

/-- `claim_system` writes the row of the claim it has paid. -/
private theorem Apart.addClaim (hs : s.Apart) {tx : ClaimTx}
    {claim : InsertClaim} (hpc : s.claim = .addClaim tx claim)
    (howns : ∃ m, s.db.miners.find? tx.minerPubkey = some m ∧ m.id = claim.minerId) :
    Apart { s with
      db := { s.db with claims := s.db.claims ++ [{ claim with createdAt := s.now }] }
      claim := .remove tx } := by
  obtain ⟨m, hm, hid⟩ := howns
  have hrested : s.db.Rested s.now tx.minerPubkey s.db.claims := hs.claim (by rw [hpc]; rfl) (by simp [hpc])
  refine ⟨List.pairwise_append.2 ⟨hs.spaced, List.pairwise_singleton _ _, ?_⟩, fun {k item} hk hne => ?_, fun _ hne =>
    absurd rfl (hne tx)⟩
  · intro row hrow row' hrow' he
    rw [List.mem_singleton.1 hrow'] at he ⊢
    exact coolingDown_eq_false.1 (hrested row hrow ⟨m, hm, hid.trans he.symm⟩)
  · have hother : k ≠ tx.minerPubkey := Ne.symm (hne tx rfl)
    exact rested_append hother ⟨m, hm, hid⟩ (hs.queue hk fun tx' he => by rw [hpc] at he; cases he)

theorem Apart.step (hs : s.Apart) (hknown : s.Known) (hC : s.Cooled a)
    (howns : ∀ {tx claim}, s.claim = .addClaim tx claim →
      ∃ m, s.db.miners.find? tx.minerPubkey = some m ∧ m.id = claim.minerId) (h : Step su s a s') : s'.Apart := by
  have hstep := h
  have hclaims := h.claims
  cases h with
  | @insert i ins answer hpc =>
    refine hs.frame hstep rfl (fun hk hne => ?_) fun hk hne => ⟨hknown.claim hk, hs.claim hk hne⟩
    rcases lookup_insert_cases hk with ⟨rfl, -⟩ | ⟨-, hk⟩
    · exact ⟨hknown.requests (List.mem_of_getElem? hpc) rfl, hC ins (insertion_of_insert hpc)⟩
    · exact ⟨hknown.queue hk, hs.queue hk hne⟩
  | @claim input m pc hclaim =>
    generalize hpc : s.claim = pc₀ at hclaim
    -- a step that writes no row, and neither ends nor begins a removal
    have hmove : (∀ tx, pc₀ ≠ .remove tx) → m.db.claims = s.db.claims →
        (∀ {k item}, m.queue.lookup k = some item → s.queue.lookup k = some item) →
        (∀ {k item}, pc.item? = some (k, item) → pc₀.item? = some (k, item)) →
        Apart { s with db := m.db, queue := m.queue, chain := m.chain, claim := pc } := by
      intro hne hrows hqueue hitem
      have hne : ∀ tx, s.claim ≠ .remove tx := hpc ▸ hne
      refine hs.frame hstep hrows (fun hk _ => ?_) (fun hk _ => ?_)
      · have hk := hqueue hk
        exact ⟨hknown.queue hk, hs.queue hk fun tx he => absurd he (hne tx)⟩
      · have hk : s.claim.item? = some _ := hpc ▸ hitem hk
        exact ⟨hknown.claim hk, hs.claim hk hne⟩
    cases hclaim with
    | stay => exact hs.same hknown hstep rfl rfl hpc.symm
    | @pick miner item hq =>
      refine hs.frame hstep rfl (fun hk _ => ?_) (fun hk _ => ?_)
      · exact ⟨hknown.queue hk, hs.queue hk fun tx he => by rw [hpc] at he; cases he⟩
      · cases hk
        exact ⟨hknown.queue hq, hs.queue hq fun tx he => by rw [hpc] at he; cases he⟩
    | addClaim => exact hs.addClaim hpc (howns hpc)
    | @remove tx =>
      refine hs.frame hstep rfl (fun hk _ => ?_) (fun hk _ => by cases hk)
      obtain ⟨hne, hk⟩ := lookup_erase_cases hk
      refine ⟨hknown.queue hk, hs.queue hk fun tx' he => ?_⟩
      rw [hpc] at he
      cases he
      exact Ne.symm hne
    | drop => exact hmove (by simp) rfl (fun hk => (lookup_erase_cases hk).2) (by rintro _ _ ⟨⟩)
    | abandon | failed | expire => exact hmove (by simp) rfl id (by rintro _ _ ⟨⟩)
    | decrease =>
      rcases hclaims with hclaims | ⟨_, _, he, -⟩
      · exact hmove (by simp) hclaims id id
      · rw [hpc] at he
        cases he
    | addTxn hl => exact hmove (by simp) hl.claims id id
    | _ => exact hmove (by simp) rfl id id
  | payout _ hpay => exact hs.same hknown hstep (sameBooks_of_payoutStep hpay).claims rfl rfl
  | mineCall hmine => exact hs.same hknown hstep (sameBooks_of_mineStep hmine).claims rfl rfl
  | signup => exact hs.same hknown hstep (sameBooks_of_signup ..).claims rfl rfl
  | _ => exact hs.same hknown hstep rfl rfl rfl

/-- The cooldown is kept in a run: no claim is accepted within half an hour of another of its miner, and the claims of a
miner are more than half an hour apart. -/
def CooldownKept (su : Setup) (s : Treasury) (as : List Action) : Prop :=
  Along (Treasury.step su) Cooled s as ∧ ∀ s', run (Treasury.step su) s as = some s' → s'.db.Spaced

/-- In every run of a fresh server the cooldown is kept exactly when no claim is accepted while a row of its miner that
its handler has not seen is less than half an hour old. -/
theorem cooldown_kept_iff (su : Setup) {s : Treasury} (h0 : s.Fresh) (hdated : s.db.Dated s.now) (hspaced : s.db.Spaced)
    (as : List Action) :
    CooldownKept su s as ↔ Along (watched (Treasury.step su) watchLooks) Looked (s, []) as := by
  have hiff : Along (watched (Treasury.step su) watchLooks) (fun x a => x.1.Cooled a) (s, []) as ↔
      Along (watched (Treasury.step su) watchLooks) Looked (s, []) as := by
    refine along_iff_of_invariant (I := fun x => x.1.Observant x.2)
      (watched_invariant (J := fun x => Observant x.1 x.2) ?_) cooled_iff ?_
    · exact fun hx _ hstep => Observant.step hx (step_sound hstep)
    · refine ⟨hdated, ?_, ?_, ?_, ?_⟩ <;> simp [h0.requests]
  rw [along_watched] at hiff
  refine ⟨fun h => hiff.1 h.1, fun h => ⟨hiff.2 h, fun s' hrun => ?_⟩⟩
  have hstart : s.Known ∧ (∃ seen bookings, Books s.db s.db s.claim seen bookings) ∧ s.Apart := by
    refine ⟨h0.known, ⟨[], [], ?_⟩, hspaced, ?_, ?_⟩ <;> simp only [h0.claim, h0.queue]
    · exact Books.start s.db
    · rintro k item ⟨⟩
    · rintro k item ⟨⟩
  have hend : s'.Known ∧ (∃ seen bookings, Books s.db s'.db s'.claim seen bookings) ∧ s'.Apart :=
    run_invariant (I := fun t : Treasury => t.Known ∧ (∃ seen bookings, Books s.db t.db t.claim seen bookings) ∧ t.Apart)
      (fun {t a t'} ht hC hstep => by
        obtain ⟨hknown, ⟨seen, bookings, hbooks⟩, hapart⟩ := ht
        have hstep := step_sound hstep
        obtain ⟨bookings', hbooks'⟩ := hbooks.step hknown hstep
        exact ⟨hknown.step hstep, ⟨_, bookings', hbooks'⟩, hapart.step hknown hC (fun h => (hbooks.current h).miner) hstep⟩)
      hstart (hiff.2 h) hrun
  exact hend.2.2.spaced

/-- A miner with 9 BITZ. -/
def richStart : Treasury := start (Database.single (filled 7) 9000000000)

/-- The transaction `id` for the item with this number, of a signed claim. -/
def signedTx (id ticket : ℕ) : ClaimTx := ⟨id, filled 7, ⟨filled 9, 3000000000, ticket⟩, false, 3000000000⟩

/-- A signed claim, paid and booked; half an hour later the next one. -/
def twoClaims : List Action :=
  signedClaim 0 ++ claimSend (signedTx 0 0) ++ claimBook (signedTx 0 0) ++ List.replicate 29 .tick ++
    [.request (.v2 exampleParams)] ++ List.replicate 1772 .tick ++ (signedClaim 1).tail ++ claimSend (signedTx 1 1) ++
      claimBook (signedTx 1 1)

/-- Both claims are accepted and paid, the second one 1801 seconds after the first was booked. -/
theorem cooldown_kept_example :
    (∃ s', run (Treasury.step exampleSetup) richStart twoClaims = some s' ∧
      s'.db.claims.map (·.createdAt) = [0, 1801]) ∧ CooldownKept exampleSetup richStart twoClaims := by
  refine ⟨exists_of_run (by decide +kernel), (cooldown_kept_iff exampleSetup (start_fresh _) ?_ ?_ _).2 (by decide +kernel)⟩
  · exact ⟨List.Pairwise.nil, by rintro row ⟨⟩⟩
  · exact List.Pairwise.nil

/-- A signed claim is paid and booked; the next one is checked at once, but its lookup of the last claim gets no
connection. -/
def blindLookup : List Action :=
  signedClaim 0 ++ claimSend (signedTx 0 0) ++ claimBook (signedTx 0 0) ++
    [.request (.v2 exampleParams), .requestStep 1 .readQueue, .requestStep 1 (.call .executed),
      .requestStep 1 (.call .noConnection), .requestStep 1 (.tokenAccount .uiAmount), .requestStep 1 .insert] ++
    claimSend (signedTx 1 1) ++ claimBook (signedTx 1 1)

/-- Two signed claims pass their checks; the second is inserted when the first has been booked. -/
def checkedTogether : List Action :=
  (signedClaim 0).dropLast ++ (signedClaim 1).dropLast ++ [.requestStep 0 .insert] ++ claimSend (signedTx 0 0) ++
    claimBook (signedTx 0 0) ++ [.requestStep 1 .insert] ++ claimSend (signedTx 1 1) ++ claimBook (signedTx 1 1)

/-- The second claim of the run is accepted, paid and booked in the same second as the first. -/
def SkipsCooldown (as : List Action) : Prop :=
  ¬ CooldownKept exampleSetup richStart as ∧
    ∃ s', run (Treasury.step exampleSetup) richStart as = some s' ∧
      s'.db.claims.map (fun row => (row.minerId, row.createdAt)) = [(1, 0), (1, 0)] ∧
      s'.requests = List.replicate 2 (.answered ⟨200, "SUCCESS"⟩)

private theorem skipsCooldown {as : List Action} (h : ∃ s', run (Treasury.step exampleSetup) richStart as = some s' ∧
    s'.db.claims.map (fun row => (row.minerId, row.createdAt)) = [(1, 0), (1, 0)] ∧
    s'.requests = List.replicate 2 (.answered ⟨200, "SUCCESS"⟩)) : SkipsCooldown as := by
  refine ⟨fun hkept => ?_, h⟩
  obtain ⟨s', hrun, hrows, -⟩ := h
  have hspaced : (s'.db.claims.map fun row => (row.minerId, row.createdAt)).Pairwise
      fun p q => p.1 = q.1 → p.2 + 1800 < q.2 := List.pairwise_map.2 (hkept.2 s' hrun)
  rw [hrows] at hspaced
  exact absurd (List.rel_of_pairwise_cons hspaced List.mem_cons_self rfl) (by decide)

theorem cooldown_skipped : SkipsCooldown blindLookup ∧ SkipsCooldown checkedTogether := by
  constructor
  · exact skipsCooldown (exists_of_run (by decide +kernel))
  · exact skipsCooldown (exists_of_run (by decide +kernel))

end Treasury

end BitzPool
