import Mathlib.Data.List.AList
import Mathlib.Data.Vector.Defs
import Mathlib.Data.Vector.Basic

/-!
# Data of the pool server

The records shared by the tasks of the server: keys and addresses, drillx solutions, the submissions of an epoch,
connections, the claims queue, and the message that carries a mined reward to the payout.  Rust's fixed-width
integers are Lean's (`u64` is `UInt64`, with the wrapping arithmetic of a release build), hash maps are association
lists with distinct keys, whose order stands for the iteration order.
-/

namespace BitzPool

/-! ### Keys, addresses, constants -/

abbrev Pubkey := List.Vector UInt8 32

abbrev Challenge := List.Vector UInt8 32

/-- The key, or challenge, all of whose bytes are `b`. -/
def filled (b : UInt8) : List.Vector UInt8 32 := List.Vector.replicate 32 b

/-- An ed25519 signature of a client over a request. -/
abbrev AuthSignature := List.Vector UInt8 64

abbrev Uuid := BitVec 128

/-- Identifiers of rows of `miners`, `challenges` and `pools` (`i32`). -/
abbrev RowId := Int32

abbrev MinerId := RowId

inductive SocketAddr
  | v4 (ip : BitVec 32) (port : UInt16)
  | v6 (ip : BitVec 128) (port : UInt16)
  deriving DecidableEq

abbrev HashMap (K V : Type) := AList fun _ : K => V

def minDiff : UInt32 := 12

/-- The hashpower of difficulty 12. -/
def minHashpower : UInt64 := 80

/-- The hashpower of difficulty 24. -/
def maxCalculatedHashpower : UInt64 := 327680

/-- The price of creating a token account, and the smallest claim: 0.02 BITZ. -/
def ataFee : UInt64 := 2000000000

/-! ### Solutions and submissions -/

/-- `drillx::Solution`: digest and nonce. -/
structure Solution where
  d : List.Vector UInt8 16
  n : List.Vector UInt8 8
  deriving DecidableEq

/-- `u64::from_le_bytes`. -/
def fromLeBytes (bytes : List UInt8) : UInt64 :=
  UInt64.ofNat (bytes.foldr (fun b acc => b.toNat + 256 * acc) 0)

def Solution.nonce (s : Solution) : UInt64 := fromLeBytes s.n.toList

/-- What the server uses of the drillx crate. -/
structure Drillx where
  /-- `Solution::is_valid` -/
  isValid : Solution → Challenge → Bool
  /-- `Solution::to_hash().difficulty()` -/
  difficulty : Solution → UInt32

/-- The best submission of a connection in the current epoch.  The message handler, the only place that builds
one, caps the hashpower. -/
structure InternalMessageSubmission where
  minerId : MinerId
  suppliedDiff : UInt32
  suppliedNonce : UInt64
  hashpower : UInt64
  realHashpower : UInt64
  capped : hashpower = min realHashpower maxCalculatedHashpower
  deriving DecidableEq

abbrev Submissions := HashMap Uuid InternalMessageSubmission

/-- `eore_api::state::Proof`, as far as the server reads it. -/
structure Proof where
  challenge : Challenge
  lastHashAt : Int64
  deriving DecidableEq

structure BestHash where
  solution : Option Solution
  difficulty : UInt32
  deriving DecidableEq

structure EpochHashes where
  challenge : Challenge
  bestHash : BestHash
  submissions : Submissions
  deriving DecidableEq

/-! ### Connections -/

/-- A live websocket connection.  The version, the sink and the start time decide nothing here. -/
structure AppClientConnection where
  uuid : Uuid
  pubkey : Pubkey
  minerId : MinerId
  workerName : String
  deriving DecidableEq

abbrev Sockets := HashMap SocketAddr AppClientConnection

/-- Connection identifiers are fresh (`Uuid::new_v4`), so no two live connections share one. -/
def UuidsUnique (socks : Sockets) : Prop := (socks.entries.map fun e => e.2.uuid).Nodup

instance (socks : Sockets) : Decidable (UuidsUnique socks) :=
  inferInstanceAs (Decidable (List.Nodup _))

/-! ### Claims and mined rewards -/

/-- An entry of the claims queue.  `ticket` numbers the insertions; no code reads it, it only tells one insertion
from another. -/
structure ClaimsQueueItem where
  receiverPubkey : Pubkey
  amount : UInt64
  ticket : ℕ
  deriving DecidableEq

abbrev ClaimsQueue := HashMap Pubkey ClaimsQueueItem

/-- What the payout task hands to `poolMineSuccessSystem` for a mined challenge. -/
structure MessageInternalMineSuccess where
  difficulty : UInt32
  rewards : UInt64
  commissions : UInt64
  challengeId : RowId
  challenge : Challenge
  bestNonce : UInt64
  totalHashpower : UInt64
  totalRealHashpower : UInt64
  submissions : Submissions
  deriving DecidableEq

end BitzPool
