import Mathlib.Algebra.Group.Nat.Defs

/-!
# Little-endian bytes

A natural number in a fixed number of bytes, lowest byte first.  `decode_encode` says what survives, `encode_injOn` that
numbers in range are told apart, `encode_decode` that no bytes are left over.
-/

namespace LittleEndian

/-- The `w` low bytes of `n`. -/
def encode (w n : ℕ) : List UInt8 := (List.range w).map fun i => UInt8.ofNat (n / 256 ^ i)

def decode (bytes : List UInt8) : ℕ := bytes.foldr (fun b acc => b.toNat + 256 * acc) 0

@[simp] theorem length_encode (w n : ℕ) : (encode w n).length = w := by simp [encode]

theorem encode_succ (w n : ℕ) : encode (w + 1) n = UInt8.ofNat n :: encode w (n / 256) := by
  simp only [encode, List.range_succ_eq_map, List.map_cons, List.map_map, pow_zero, Nat.div_one]
  congr 1
  refine List.map_congr_left fun i _ => ?_
  simp only [Function.comp_apply, Nat.pow_succ', Nat.div_div_eq_div_mul]

theorem decode_encode (w n : ℕ) : decode (encode w n) = n % 256 ^ w := by
  induction w generalizing n with
  | zero => simp [encode, decode, Nat.mod_one]
  | succ w ih =>
    have htail : decode (encode w (n / 256)) = n / 256 % 256 ^ w := ih (n / 256)
    rw [encode_succ]
    simp only [decode, List.foldr_cons, UInt8.toNat_ofNat'] at htail ⊢
    rw [htail, pow_succ' 256 w, Nat.mod_mul]

theorem decode_lt (bytes : List UInt8) : decode bytes < 256 ^ bytes.length := by
  induction bytes with
  | nil => simp [decode]
  | cons b bytes ih =>
    have hb : b.toNat < 256 := b.toNat_lt
    have hcons : decode (b :: bytes) = b.toNat + 256 * decode bytes := rfl
    rw [hcons, List.length_cons, pow_succ']
    omega

/-- Every list of bytes is the encoding of what it decodes to. -/
theorem encode_decode (bytes : List UInt8) : encode bytes.length (decode bytes) = bytes := by
  induction bytes with
  | nil => rfl
  | cons b bytes ih =>
    have hb : b.toNat < 256 := b.toNat_lt
    have hcons : decode (b :: bytes) = b.toNat + 256 * decode bytes := rfl
    have hdiv : decode (b :: bytes) / 256 = decode bytes := by omega
    have hmod : UInt8.ofNat (decode (b :: bytes)) = b := by
      apply UInt8.toNat_inj.1
      rw [UInt8.toNat_ofNat', hcons]
      omega
    rw [List.length_cons, encode_succ, hdiv, hmod, ih]

theorem encode_injOn {w n m : ℕ} (hn : n < 256 ^ w) (hm : m < 256 ^ w) (h : encode w n = encode w m) : n = m := by
  have hdecode := congrArg decode h
  rwa [decode_encode, decode_encode, Nat.mod_eq_of_lt hn, Nat.mod_eq_of_lt hm] at hdecode

end LittleEndian
