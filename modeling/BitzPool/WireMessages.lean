import BitzPool.Assignment
import BitzPool.Lib.FixedCodec

/-!
# The server's binary messages

`to_message_binary` of the two messages: a byte for the type, then the fields one after the other, without lengths or
separators.  Both are formats of fixed width (`toMessageBinary_eq_encode`), so that the client can read every message back,
and tell from its first byte which of the two it is (`messages_unambiguous`).
-/

namespace BitzPool

/-- An `f64`, as its bit pattern. -/
structure F64 where
  toBits : UInt64
  deriving DecidableEq

structure ServerMessagePoolSubmissionResult where
  difficulty : UInt32
  totalBalance : F64
  totalRewards : F64
  topStake : F64
  multiplier : F64
  activeMiners : UInt32
  challenge : Challenge
  bestNonce : UInt64
  minerSuppliedDifficulty : UInt32
  minerEarnedRewards : F64
  minerPercentage : F64
  deriving DecidableEq

/-! ### Encoding -/

/-- `u32::to_le_bytes`. -/
def u32ToLeBytes (n : UInt32) : List UInt8 := (List.range 4).map fun i => UInt8.ofNat (n.toNat / 256 ^ i)

/-- `i64::to_le_bytes`. -/
def i64ToLeBytes (n : Int64) : List UInt8 := toLeBytes n.toUInt64

/-- `f64::to_le_bytes`. -/
def F64.toLeBytes (x : F64) : List UInt8 := BitzPool.toLeBytes x.toBits

def ServerMessageStartMining.toMessageBinary (msg : ServerMessageStartMining) : List UInt8 :=
  [0] ++ msg.challenge.toList ++ i64ToLeBytes msg.cutoff ++ toLeBytes msg.nonceRangeStart ++
    toLeBytes msg.nonceRangeEnd

def ServerMessagePoolSubmissionResult.toMessageBinary (msg : ServerMessagePoolSubmissionResult) : List UInt8 :=
  [1] ++ u32ToLeBytes msg.difficulty ++ msg.totalBalance.toLeBytes ++ msg.totalRewards.toLeBytes ++
    msg.topStake.toLeBytes ++ msg.multiplier.toLeBytes ++ u32ToLeBytes msg.activeMiners ++ msg.challenge.toList ++
    toLeBytes msg.bestNonce ++ u32ToLeBytes msg.minerSuppliedDifficulty ++ msg.minerEarnedRewards.toLeBytes ++
    msg.minerPercentage.toLeBytes

/-! ### The formats -/

def u32Codec : FixedCodec UInt32 :=
  .littleEndian 4 UInt32.toNat UInt32.ofNat (fun n => n.toNat_lt) (fun _ => UInt32.ofNat_toNat) fun _ h =>
    UInt32.toNat_ofNat_of_lt' h

def u64Codec : FixedCodec UInt64 :=
  .littleEndian 8 UInt64.toNat UInt64.ofNat (fun n => n.toNat_lt) (fun _ => UInt64.ofNat_toNat) fun _ h =>
    UInt64.toNat_ofNat_of_lt' h

def i64Codec : FixedCodec Int64 :=
  u64Codec.map ⟨UInt64.toInt64, Int64.toUInt64, fun _ => rfl, fun _ => rfl⟩

def f64Codec : FixedCodec F64 := u64Codec.map ⟨F64.mk, F64.toBits, fun _ => rfl, fun _ => rfl⟩

/-- The fields of a message to start mining. -/
def ServerMessageStartMining.fields : FixedCodec (Challenge × Int64 × UInt64 × UInt64) :=
  (FixedCodec.bytes 32).pair (i64Codec.pair (u64Codec.pair u64Codec))

def ServerMessageStartMining.codec : FixedCodec ServerMessageStartMining :=
  .tagged 0 (fields.map
    { toFun := fun (challenge, cutoff, start, stop) => ⟨challenge, cutoff, start, stop⟩
      invFun := fun msg => (msg.challenge, msg.cutoff, msg.nonceRangeStart, msg.nonceRangeEnd)
      left_inv := fun _ => rfl
      right_inv := fun _ => rfl })

def ServerMessagePoolSubmissionResult.codec : FixedCodec ServerMessagePoolSubmissionResult :=
  .tagged 1 ((u32Codec.pair (f64Codec.pair (f64Codec.pair (f64Codec.pair (f64Codec.pair (u32Codec.pair
    ((FixedCodec.bytes 32).pair (u64Codec.pair (u32Codec.pair (f64Codec.pair f64Codec)))))))))).map
    { toFun := fun (difficulty, totalBalance, totalRewards, topStake, multiplier, activeMiners, challenge, bestNonce,
        minerSuppliedDifficulty, minerEarnedRewards, minerPercentage) =>
        ⟨difficulty, totalBalance, totalRewards, topStake, multiplier, activeMiners, challenge, bestNonce,
          minerSuppliedDifficulty, minerEarnedRewards, minerPercentage⟩
      invFun := fun msg => (msg.difficulty, msg.totalBalance, msg.totalRewards, msg.topStake, msg.multiplier,
        msg.activeMiners, msg.challenge, msg.bestNonce, msg.minerSuppliedDifficulty, msg.minerEarnedRewards,
        msg.minerPercentage)
      left_inv := fun _ => rfl
      right_inv := fun _ => rfl })

theorem ServerMessageStartMining.toMessageBinary_eq_encode (msg : ServerMessageStartMining) :
    msg.toMessageBinary = codec.encode msg := by
  simp only [toMessageBinary, List.append_assoc]
  rfl

theorem ServerMessagePoolSubmissionResult.toMessageBinary_eq_encode (msg : ServerMessagePoolSubmissionResult) :
    msg.toMessageBinary = codec.encode msg := by
  simp only [toMessageBinary, List.append_assoc]
  rfl

/-- A client reads a message, field by field. -/
def ServerMessageStartMining.fromMessageBinary (d : List UInt8) : Option ServerMessageStartMining := codec.decode d

def ServerMessagePoolSubmissionResult.fromMessageBinary (d : List UInt8) : Option ServerMessagePoolSubmissionResult :=
  codec.decode d

/-- What it takes for the messages `toBinary` writes to be read by `fromBinary`: no two messages have the same bytes, all
have `width` bytes, every message is read back, and what is read is written the same way. -/
structure ReadableFormat {M : Type} (width : ℕ) (toBinary : M → List UInt8) (fromBinary : List UInt8 → Option M) :
    Prop where
  injective : Function.Injective toBinary
  length : ∀ msg, (toBinary msg).length = width
  decode_encode : ∀ msg, fromBinary (toBinary msg) = some msg
  encode_decode : ∀ {d msg}, fromBinary d = some msg → toBinary msg = d

theorem readableFormat_of_codec {M : Type} {toBinary : M → List UInt8} (codec : FixedCodec M)
    (h : ∀ msg, toBinary msg = codec.encode msg) : ReadableFormat codec.width toBinary codec.decode where
  injective := by
    intro msg msg' he
    rw [h, h] at he
    exact codec.encode_injective he
  length msg := by rw [h, codec.length_encode]
  decode_encode msg := by rw [h, codec.decode_encode]
  encode_decode hd := by rw [h, codec.decode_eq_some.1 hd]

/-- Messages of either type are read back from their 57 or 101 bytes, and no message of one type begins a message of the
other. -/
theorem messages_unambiguous :
    ReadableFormat 57 ServerMessageStartMining.toMessageBinary ServerMessageStartMining.fromMessageBinary ∧
      ReadableFormat 101 ServerMessagePoolSubmissionResult.toMessageBinary
        ServerMessagePoolSubmissionResult.fromMessageBinary ∧
      ∀ (msg : ServerMessageStartMining) (msg' : ServerMessagePoolSubmissionResult),
        ¬ msg.toMessageBinary <+: msg'.toMessageBinary ∧ ¬ msg'.toMessageBinary <+: msg.toMessageBinary := by
  refine ⟨readableFormat_of_codec _ ServerMessageStartMining.toMessageBinary_eq_encode,
    readableFormat_of_codec _ ServerMessagePoolSubmissionResult.toMessageBinary_eq_encode, fun msg msg' => ?_⟩
  rw [msg.toMessageBinary_eq_encode, msg'.toMessageBinary_eq_encode]
  constructor
  · exact FixedCodec.not_prefix_of_ne (by decide) _ _ _ _
  · exact FixedCodec.not_prefix_of_ne (by decide) _ _ _ _

end BitzPool
