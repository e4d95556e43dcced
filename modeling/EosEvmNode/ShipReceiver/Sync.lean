import EosEvmNode.ShipReceiver.Model
import EosEvmNode.Engine

/-! # Connecting to the state history

    What `sync` asks for: on the first connection the native block after the one
    the start block carries, on a reconnection the block after the last
    irreversible or the last read one, whichever is lower. -/

namespace ShipReceiver

open Channels Silkworm Engine

variable {Tx : Type}

/-- The members that survive a reconnection; both are `uint32_t`. -/
structure Receiver where
  lastLib : Nat
  lastBlockNum : Nat
  deriving DecidableEq, Repr

/-- What `init` sets. -/
def Receiver.init : Receiver where
  lastLib := 0
  lastBlockNum := 0

/-- `sync`, up to the block number it requests.  `traceBeginBlock` is the first
    block the endpoint has traces of. -/
def sync (r : Receiver) (db : ChainData Tx) (height : Option Nat)
    (traceBeginBlock : Nat) : Except Failure Nat := do
  let startFrom ←
    if r.lastLib > 0 then
      .ok (((if r.lastLib > r.lastBlockNum then r.lastBlockNum else r.lastLib) + 1)
        % 2 ^ 32)
    else
      match getCanonicalBlockAtHeight db height with
      | none => .error (.sysError "Unable to read canonical block")
      | some startBlock =>
          .ok ((toBlockNum startBlock.header.prevRandao + 1) % 2 ^ 32)
  if traceBeginBlock > startFrom then
    .error (.sysError "Start block not available in SHiP")
  else .ok startFrom

/-- The stream resumes above the lower of the last LIB and the last block, or
    starts above the native block of the start block. -/
theorem sync_ok {r : Receiver} {db : ChainData Tx} {height : Option Nat}
    {traceBeginBlock n : Nat} (h : sync r db height traceBeginBlock = .ok n) :
    (0 < r.lastLib ∧
      n = ((if r.lastLib > r.lastBlockNum then r.lastBlockNum else r.lastLib) + 1)
        % 2 ^ 32) ∨
    (r.lastLib = 0 ∧ ∃ startBlock,
      getCanonicalBlockAtHeight db height = some startBlock ∧
      n = (toBlockNum startBlock.header.prevRandao + 1) % 2 ^ 32) := by
  have hcheck : ∀ {startFrom : Nat},
      (if traceBeginBlock > startFrom then
        Except.error (.sysError "Start block not available in SHiP")
      else .ok startFrom : Except Failure Nat) = .ok n → n = startFrom := by
    intro startFrom h
    split at h
    · cases h
    · exact (Except.ok.inj h).symm
  unfold sync at h
  -- after a block has been read, or on the first connection
  by_cases hpos : r.lastLib > 0
  · rw [if_pos hpos] at h
    exact Or.inl ⟨hpos, hcheck h⟩
  · rw [if_neg hpos] at h
    cases hstart : getCanonicalBlockAtHeight db height with
    | none => rw [hstart] at h; cases h
    | some startBlock =>
        rw [hstart] at h
        exact Or.inr ⟨by omega, startBlock, rfl, hcheck h⟩

/-- `start_read`, once a block has been read. -/
def Receiver.read (b : NativeBlock) : Receiver where
  lastLib := b.lib
  lastBlockNum := b.blockNum

end ShipReceiver
