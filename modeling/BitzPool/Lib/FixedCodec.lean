import BitzPool.Lib.LittleEndian
import Mathlib.Data.Vector.Basic
import Mathlib.Logic.Equiv.Prod

/-!
# Formats of fixed width

A `FixedCodec` writes every value of a type in the same number of bytes, and reads a list of bytes as a value exactly when
they are what it writes for that value (`decode_eq_some`).  So no two values share an encoding, and what is read is written
back the same.  A record is its fields, one after the other (`pair`, `map`), behind a byte for its type (`tagged`); since
the widths are fixed, a field lies at the sum of the widths before it (`drop_encode_pair`, `take_encode_pair`).
-/

structure FixedCodec (α : Type*) where
  width : ℕ
  encode : α → List UInt8
  decode : List UInt8 → Option α
  length_encode : ∀ a, (encode a).length = width
  decode_eq_some : ∀ {bytes a}, decode bytes = some a ↔ encode a = bytes

namespace FixedCodec

variable {α β : Type*}

theorem decode_encode (c : FixedCodec α) (a : α) : c.decode (c.encode a) = some a := c.decode_eq_some.2 rfl

theorem encode_injective (c : FixedCodec α) : Function.Injective c.encode := by
  intro a b h
  have hdecode : c.decode (c.encode b) = some a := by rw [← h, decode_encode]
  rw [decode_encode] at hdecode
  exact (Option.some.inj hdecode).symm

/-! ### Single fields -/

/-- The byte `b`. -/
def tag (b : UInt8) : FixedCodec Unit where
  width := 1
  encode _ := [b]
  decode bytes := if bytes = [b] then some () else none
  length_encode _ := rfl
  decode_eq_some := by simp [eq_comm]

def bytes (n : ℕ) : FixedCodec (List.Vector UInt8 n) where
  width := n
  encode v := v.toList
  decode l := if h : l.length = n then some ⟨l, h⟩ else none
  length_encode v := v.toList_length
  decode_eq_some := by
    intro l v
    constructor
    · intro h
      split at h
      · cases h
        rfl
      · cases h
    · rintro rfl
      rw [dif_pos v.toList_length]
      rfl

/-- The values of `α` are numbered by those that fit into `w` bytes. -/
def littleEndian (w : ℕ) (toNat : α → ℕ) (ofNat : ℕ → α) (hlt : ∀ a, toNat a < 256 ^ w)
    (hof : ∀ a, ofNat (toNat a) = a) (hto : ∀ n < 256 ^ w, toNat (ofNat n) = n) : FixedCodec α where
  width := w
  encode a := LittleEndian.encode w (toNat a)
  decode l := if l.length = w then some (ofNat (LittleEndian.decode l)) else none
  length_encode a := LittleEndian.length_encode w (toNat a)
  decode_eq_some := by
    intro l a
    constructor
    · intro h
      split at h
      · next hl =>
        cases h
        rw [hto _ (hl ▸ LittleEndian.decode_lt l), ← hl, LittleEndian.encode_decode]
      · cases h
    · rintro rfl
      rw [if_pos (LittleEndian.length_encode w _), LittleEndian.decode_encode, Nat.mod_eq_of_lt (hlt a), hof]

/-! ### Records -/

def pair (c : FixedCodec α) (d : FixedCodec β) : FixedCodec (α × β) where
  width := c.width + d.width
  encode x := c.encode x.1 ++ d.encode x.2
  decode l := (c.decode (l.take c.width)).bind fun a => (d.decode (l.drop c.width)).map fun b => (a, b)
  length_encode x := by rw [List.length_append, c.length_encode, d.length_encode]
  decode_eq_some := by
    rintro l ⟨a, b⟩
    simp only [Option.bind_eq_some_iff, Option.map_eq_some_iff, Prod.mk.injEq]
    constructor
    · rintro ⟨_, ha, _, hb, rfl, rfl⟩
      rw [c.decode_eq_some.1 ha, d.decode_eq_some.1 hb, List.take_append_drop]
    · rintro rfl
      refine ⟨a, ?_, b, ?_, rfl, rfl⟩
      · rw [← c.length_encode a, List.take_left, decode_encode]
      · rw [← c.length_encode a, List.drop_left, decode_encode]

/-- The same format for a type with the same values. -/
def map (c : FixedCodec α) (e : α ≃ β) : FixedCodec β where
  width := c.width
  encode b := c.encode (e.symm b)
  decode l := (c.decode l).map e
  length_encode b := c.length_encode (e.symm b)
  decode_eq_some := by
    intro l b
    rw [Option.map_eq_some_iff]
    constructor
    · rintro ⟨a, ha, rfl⟩
      rw [e.symm_apply_apply, c.decode_eq_some.1 ha]
    · intro h
      exact ⟨e.symm b, c.decode_eq_some.2 h, e.apply_symm_apply b⟩

/-- `c` behind the byte `b`. -/
def tagged (b : UInt8) (c : FixedCodec α) : FixedCodec α := ((tag b).pair c).map (Equiv.punitProd α)

theorem encode_tagged (b : UInt8) (c : FixedCodec α) (a : α) : (tagged b c).encode a = b :: c.encode a := rfl

/-- Records of types with different bytes are told apart by any beginning. -/
theorem not_prefix_of_ne {b b' : UInt8} (h : b ≠ b') (c : FixedCodec α) (d : FixedCodec β) (x : α) (y : β) :
    ¬ (tagged b c).encode x <+: (tagged b' d).encode y := by
  rw [encode_tagged, encode_tagged, List.cons_prefix_cons]
  exact fun hprefix => h hprefix.1

/-- The first field. -/
theorem take_encode_pair (c : FixedCodec α) (d : FixedCodec β) (x : α × β) :
    ((c.pair d).encode x).take c.width = c.encode x.1 := by
  rw [← c.length_encode x.1]
  exact List.take_left

/-- What follows it. -/
theorem drop_encode_pair (c : FixedCodec α) (d : FixedCodec β) (x : α × β) :
    ((c.pair d).encode x).drop c.width = d.encode x.2 := by
  rw [← c.length_encode x.1]
  exact List.drop_left

end FixedCodec
