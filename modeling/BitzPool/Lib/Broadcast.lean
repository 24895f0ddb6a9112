import Mathlib.Data.List.Nodup

/-!
# Transactions sent to a chain

What a client of a chain does with its transactions, and what becomes of them: it builds transactions, asks for some
to be sent, and any of those may be finalised later, with or without an error.  A send that fails may have been
broadcast all the same, so `send` has no result, and nothing ever takes a transaction back.  `id` tells transactions
apart: the chain finalises at most one for each (`landed_inj`), and only what was sent (`landedSent`).
-/

namespace Broadcast

/-- A transaction that was finalised, with or without an error. -/
structure Landed (Tx : Type*) where
  tx : Tx
  ok : Bool
  deriving DecidableEq

/-- The number of transactions built, those that were sent, and those finalised. -/
structure Chain {Tx : Type*} (id : Tx → ℕ) where
  nextTx : ℕ
  sent : List Tx
  landed : List (Landed Tx)
  landedSent : ∀ l ∈ landed, l.tx ∈ sent
  landedIds : (landed.map fun l => id l.tx).Nodup
  deriving DecidableEq

namespace Chain

variable {Tx : Type*} {id : Tx → ℕ}

instance : EmptyCollection (Chain id) := ⟨⟨0, [], [], by simp, by simp⟩⟩

instance [DecidableEq Tx] (l : Landed Tx) (c : Chain id) : Decidable (l ∈ c.landed) :=
  List.instDecidableMemOfLawfulBEq l c.landed

/-- A transaction is built; `nextTx` was its number. -/
def build (c : Chain id) : Chain id := { c with nextTx := c.nextTx + 1 }

/-- A transaction is sent, for the first time or again. -/
def send (c : Chain id) (tx : Tx) : Chain id :=
  { c with
    sent := tx :: c.sent
    landedSent := fun l hl => List.mem_cons_of_mem _ (c.landedSent l hl) }

/-- A transaction that was sent is finalised, unless one with its number was. -/
def land? [DecidableEq Tx] (c : Chain id) (tx : Tx) (ok : Bool) : Option (Chain id) :=
  if h : tx ∈ c.sent ∧ id tx ∉ c.landed.map fun l => id l.tx then
    some { c with
      landed := ⟨tx, ok⟩ :: c.landed
      landedSent := List.forall_mem_cons.2 ⟨h.1, c.landedSent⟩
      landedIds := List.nodup_cons.2 ⟨h.2, c.landedIds⟩ }
  else none

/-- What becomes of the chain when a transaction is finalised. -/
theorem land?_eq_some [DecidableEq Tx] {c c' : Chain id} {tx : Tx} {ok : Bool} (h : c.land? tx ok = some c') :
    tx ∈ c.sent ∧ (∀ l ∈ c.landed, id l.tx ≠ id tx) ∧
      c'.nextTx = c.nextTx ∧ c'.sent = c.sent ∧ c'.landed = ⟨tx, ok⟩ :: c.landed := by
  unfold land? at h
  split at h
  · next hland =>
    cases h
    exact ⟨hland.1, fun l hl he => hland.2 (List.mem_map.2 ⟨l, hl, he⟩), rfl, rfl, rfl⟩
  · cases h

/-- At most one transaction is finalised for each number. -/
theorem landed_inj {c : Chain id} {l l' : Landed Tx} (hl : l ∈ c.landed) (hl' : l' ∈ c.landed)
    (h : id l.tx = id l'.tx) : l = l' :=
  List.inj_on_of_nodup_map c.landedIds hl hl' h

/-- A transaction that was finalised with an error is not finalised without one. -/
theorem not_landed_of_failed {c : Chain id} {tx : Tx} (h : ⟨tx, false⟩ ∈ c.landed) : ⟨tx, true⟩ ∉ c.landed := by
  intro hok
  cases landed_inj hok h rfl

end Chain

end Broadcast
