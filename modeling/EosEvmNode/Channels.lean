import Mathlib.Algebra.Group.Nat.Defs
import Mathlib.Tactic.Common

/-! # The native block channel

    The messages `ship_receiver_plugin` publishes for every block of the native
    (Antelope) chain, and the few Antelope types they are made of.  Block ids
    and other 32-byte values are 256-bit vectors read big-endian, so the first
    four bytes are the top 32 bits. -/

namespace Channels

/-- 32 bytes: `eosio::checksum256` and `evmc::bytes32`. -/
abbrev Bytes32 := BitVec 256

/-- A byte string: `std::vector<uint8_t>`, `std::vector<char>`. -/
abbrev Bytes := List UInt8

/-- `eosio::name`. -/
structure Name where
  value : UInt64
  deriving DecidableEq, Repr

/-- The five bits of one character of a name. -/
def charToValue (c : Char) : Nat :=
  if 'a' ≤ c ∧ c ≤ 'z' then c.toNat - 'a'.toNat + 6
  else if '1' ≤ c ∧ c ≤ '5' then c.toNat - '1'.toNat + 1
  else 0

/-- The name spelled by at most twelve characters. -/
def Name.ofChars (cs : List Char) : Name :=
  ⟨UInt64.ofNat (cs.foldl (fun v c => v * 32 + charToValue c) 0
    * 2 ^ (64 - 5 * cs.length))⟩

def configchangeN : Name :=
  Name.ofChars ['c', 'o', 'n', 'f', 'i', 'g', 'c', 'h', 'a', 'n', 'g', 'e']

def pushtxN : Name := Name.ofChars ['p', 'u', 's', 'h', 't', 'x']

def evmtxN : Name := Name.ofChars ['e', 'v', 'm', 't', 'x']

theorem pushtxN_ne_evmtxN : pushtxN ≠ evmtxN := by decide

theorem configchangeN_ne_evmtxN : configchangeN ≠ evmtxN := by decide

theorem configchangeN_ne_pushtxN : configchangeN ≠ pushtxN := by decide

/-- The block number an Antelope block id starts with. -/
def toBlockNum (id : Bytes32) : Nat := id.toNat / 2 ^ 224

structure NativeAction where
  ordinal : Nat
  receiver : Name
  account : Name
  name : Name
  data : Bytes
  deriving DecidableEq, Repr

structure NativeTrx where
  id : Bytes32
  cpuUsageUs : Nat
  elapsed : Int
  actions : List NativeAction
  deriving DecidableEq, Repr

/-- A native block.  `timestamp` is in microseconds since 1970; it is counted
    from a 32-bit half-second slot, so it is positive and far below the range
    of the `int64_t` that holds it. -/
structure NativeBlock where
  id : Bytes32
  prev : Bytes32
  blockNum : Nat
  timestamp : Nat
  lib : Nat
  newConfig : Option NativeAction
  transactions : List NativeTrx
  deriving DecidableEq, Repr

/-- The actions of a block in the order `for_each_action` visits them. -/
def NativeBlock.actions (b : NativeBlock) : List NativeAction :=
  b.transactions.flatMap (fun trx => trx.actions)

/-- `for_each_reverse_action`: transactions from the back, and the actions of
    each from the back. -/
def NativeBlock.reverseActions (b : NativeBlock) : List NativeAction :=
  b.transactions.reverse.flatMap (fun trx => trx.actions.reverse)

/-- Visiting in reverse is the reverse of visiting. -/
theorem NativeBlock.reverseActions_eq (b : NativeBlock) :
    b.reverseActions = b.actions.reverse := by
  rw [NativeBlock.reverseActions, NativeBlock.actions, List.reverse_flatMap]
  rfl

/-- Microseconds between 1970 and the slot of a block header:
    `block_timestamp::to_time_point`. -/
def timePointOfSlot (slot : UInt32) : Nat :=
  (slot.toNat * 500 + 946684800000) * 1000

/-- How a call ends that does not return normally.  `undefined` is a `front()`
    or `back()` on an empty container, `diverged` a loop that never ends. -/
inductive Failure where
  | runtimeError (what : String)
  | sysError (what : String)
  | assertion
  | badVariantAccess
  | badPayload
  | undefined
  | diverged
  deriving DecidableEq, Repr

end Channels
