import EosEvmNode.Channels

/-! # What the node takes from silkworm, eosevm and abieos

    The block types of silkworm and the functions of the three libraries that
    the plugins call.  The functions are parameters (`Externals`): headers and
    byte strings are hashed by arbitrary functions, transactions are an
    arbitrary type with its RLP codec.  What the plugins rely on beyond the
    signatures is `Externals.Lawful`. -/

namespace Silkworm

open Channels

variable {Tx : Type}

/-- The eight nonce bytes of a header; they hold the EVM version. -/
abbrev Nonce := BitVec 64

structure BlockHeader where
  parentHash : Bytes32
  beneficiary : Bytes
  transactionsRoot : Bytes32
  difficulty : Nat
  number : Nat
  gasLimit : Nat
  timestamp : Nat
  prevRandao : Bytes32
  nonce : Nonce
  baseFeePerGas : Option Nat
  deriving DecidableEq, Repr

/-- `eosevm::gas_prices`. -/
structure GasPrices where
  overheadPrice : UInt64
  storagePrice : UInt64
  deriving DecidableEq, Repr

structure Block (Tx : Type) where
  header : BlockHeader
  transactions : List Tx
  consensusParameterIndex : Option Bytes32
  gasPrices : Option GasPrices
  irreversible : Bool
  deriving DecidableEq, Repr

/-- `eosevm::GasFeeParameters`. -/
structure GasFeeParameters where
  gasTxnewaccount : UInt64
  gasNewaccount : UInt64
  gasTxcreate : UInt64
  gasCodedeposit : UInt64
  gasSset : UInt64
  deriving DecidableEq, Repr

/-- `eosevm::ConsensusParameters`. -/
structure ConsensusParameters where
  gasFeeParameters : GasFeeParameters
  deriving DecidableEq, Repr

/-- `eosevm::block_mapping`. -/
structure BlockMapping where
  genesisTimestamp : Nat
  timestampToEvmBlockNum : Nat → Nat

/-! ## Payloads of the contract's actions -/

/-- `pushtx`: the parameters of the `pushtx` action. -/
structure PushTx where
  miner : Name
  rlpx : Bytes
  deriving DecidableEq, Repr

/-- `evmtx_type`: the variant of `evmtx_v1` and `evmtx_v3`. -/
inductive EvmTx where
  | v1 (eosEvmVersion : UInt64) (rlpx : Bytes) (baseFeePerGas : UInt64)
  | v3 (eosEvmVersion : UInt64) (rlpx : Bytes)
      (overheadPrice storagePrice : UInt64)
  deriving DecidableEq, Repr

def EvmTx.eosEvmVersion : EvmTx → UInt64
  | .v1 v _ _ => v
  | .v3 v _ _ _ => v

def EvmTx.rlpx : EvmTx → Bytes
  | .v1 _ r _ => r
  | .v3 _ r _ _ => r

/-- `gas_parameter_type` inside `consensus_parameter_data_v0`, the only
    alternative of `consensus_parameter_data_type`. -/
structure ConsensusParameterData where
  gasTxnewaccount : UInt64
  gasNewaccount : UInt64
  gasTxcreate : UInt64
  gasCodedeposit : UInt64
  gasSset : UInt64
  deriving DecidableEq, Repr

/-! ## Library functions -/

/-- The functions of silkworm, eosevm and abieos that the plugins call. -/
structure Externals (Tx : Type) where
  /-- `BlockHeader::hash`. -/
  hash : BlockHeader → Bytes32
  /-- `trie::root_hash` over the encoded elements. -/
  rootHash : List Bytes → Bytes32
  kEmptyRoot : Bytes32
  /-- `rlp::encode` with `wrap_eip2718_into_string = false`. -/
  encode : Tx → Bytes
  /-- `rlp::decode_transaction` with `Eip2718Wrapping::kBoth` and
      `Leftover::kProhibit`. -/
  decodeTransaction : Bytes → Option Tx
  keccak256 : Bytes → Bytes32
  /-- The constructor of `eosevm::block_mapping`, from the genesis timestamp
      and the block interval, both in seconds. -/
  blockMapping : Nat → Nat → BlockMapping
  nonceToVersion : Nonce → UInt64
  versionToNonce : UInt64 → Nonce
  /-- `eosevm::prepare_block_header` on a default header: block mapping,
      contract name, number, version and base fee. -/
  prepareBlockHeader :
    BlockMapping → UInt64 → Nat → UInt64 → Option UInt64 → BlockHeader
  calculateBaseFeePerGas : UInt64 → UInt64 → UInt64
  /-- `ConsensusParameters::hash`. -/
  consensusHash : ConsensusParameters → Bytes32
  /-- `eosio::convert_from_bin` at the three payload types; `none` where it
      throws. -/
  pushtxFromBin : Bytes → Option PushTx
  evmtxFromBin : Bytes → Option EvmTx
  consensusFromBin : Bytes → Option ConsensusParameterData

/-- What the plugins rely on: block mappings count one-second EVM blocks from
    genesis, a prepared header carries what it was prepared from, and a version
    survives its trip through the nonce bytes. -/
structure Externals.Lawful (X : Externals Tx) : Prop where
  mapping_genesis : ∀ g, (X.blockMapping g 1).genesisTimestamp = g
  mapping_num : ∀ g ts, g ≤ ts / 1000000 →
    (X.blockMapping g 1).timestampToEvmBlockNum ts = ts / 1000000 - g + 1
  nonce_version : ∀ v, X.nonceToVersion (X.versionToNonce v) = v
  prepared_number : ∀ bm c n v f,
    (X.prepareBlockHeader bm c n v f).number = n
  prepared_timestamp : ∀ g c n v f,
    (X.prepareBlockHeader (X.blockMapping g 1) c n v f).timestamp = g + n
  prepared_nonce : ∀ bm c n v f,
    (X.prepareBlockHeader bm c n v f).nonce = X.versionToNonce v
  prepared_baseFee : ∀ bm c n v f,
    (X.prepareBlockHeader bm c n v f).baseFeePerGas = f.map UInt64.toNat
  prepared_prevRandao : ∀ bm c n v f,
    (X.prepareBlockHeader bm c n v f).prevRandao = 0

/-! ## A plain instance

    Transactions are byte strings that encode to themselves, hashes number
    their input in base 256, and payloads are read from the wire format.  The
    instance is lawful, and runs on it can be computed. -/

/-- A byte string as a number. -/
def bytesToNat (bs : Bytes) : Nat :=
  bs.foldl (fun n b => n * 256 + b.toNat) 1

/-- A little-endian `uint64_t` at the front of a stream. -/
def readUInt64 (bs : Bytes) : Option (UInt64 × Bytes) :=
  if bs.length < 8 then none
  else some (UInt64.ofNat ((bs.take 8).foldr (fun b n => b.toNat + 256 * n) 0),
    bs.drop 8)

/-- A `varuint32`: seven bits a byte, lowest first, at most five bytes. -/
def readVarUInt32 : Nat → Bytes → Option (Nat × Bytes)
  | 0, _ => none
  | _, [] => none
  | fuel + 1, b :: bs =>
      if b.toNat < 128 then some (b.toNat, bs)
      else (readVarUInt32 fuel bs).map
        (fun (n, rest) => (b.toNat - 128 + 128 * n, rest))

def readBytes (bs : Bytes) : Option (Bytes × Bytes) := do
  let (size, bs) ← readVarUInt32 5 bs
  if bs.length < size then none
  else some (bs.take size, bs.drop size)

def readPushTx (bs : Bytes) : Option PushTx := do
  let (miner, bs) ← readUInt64 bs
  let (rlpx, _) ← readBytes bs
  return ⟨⟨miner⟩, rlpx⟩

def readEvmTx (bs : Bytes) : Option EvmTx := do
  let (index, bs) ← readVarUInt32 5 bs
  if 1 < index then none
  let (version, bs) ← readUInt64 bs
  let (rlpx, bs) ← readBytes bs
  let (fee, bs) ← readUInt64 bs
  if index = 0 then return .v1 version rlpx fee
  let (storagePrice, _) ← readUInt64 bs
  return .v3 version rlpx fee storagePrice

def readConsensusParameterData (bs : Bytes) : Option ConsensusParameterData := do
  let (index, bs) ← readVarUInt32 5 bs
  if index ≠ 0 then none
  let (a, bs) ← readUInt64 bs
  let (b, bs) ← readUInt64 bs
  let (c, bs) ← readUInt64 bs
  let (d, bs) ← readUInt64 bs
  let (e, _) ← readUInt64 bs
  return ⟨a, b, c, d, e⟩

def plainExternals : Externals Bytes where
  hash h := BitVec.ofNat 256 (bytesToNat h.beneficiary + h.number
    + 2 ^ 32 * (h.parentHash.toNat + 3 * h.prevRandao.toNat + 5 * h.nonce.toNat
      + 7 * h.transactionsRoot.toNat))
  rootHash elements := BitVec.ofNat 256 (bytesToNat elements.flatten)
  kEmptyRoot := 1
  encode tx := tx
  decodeTransaction rlpx := if rlpx = [] then none else some rlpx
  keccak256 bs := BitVec.ofNat 256 (bytesToNat bs)
  blockMapping genesis interval :=
    { genesisTimestamp := genesis
      timestampToEvmBlockNum := fun ts =>
        if ts / 1000000 < genesis then 0
        else 1 + (ts / 1000000 - genesis) / interval }
  nonceToVersion := UInt64.ofBitVec
  versionToNonce := UInt64.toBitVec
  prepareBlockHeader bm _ number version baseFeePerGas :=
    { parentHash := 0
      beneficiary := []
      transactionsRoot := 0
      difficulty := 1
      number := number
      gasLimit := 0x7ffffffffff
      timestamp := bm.genesisTimestamp + number
      prevRandao := 0
      nonce := version.toBitVec
      baseFeePerGas := baseFeePerGas.map UInt64.toNat }
  calculateBaseFeePerGas overheadPrice storagePrice :=
    max overheadPrice storagePrice
  consensusHash cp := BitVec.ofNat 256 (cp.gasFeeParameters.gasTxnewaccount.toNat
    + 2 ^ 64 * cp.gasFeeParameters.gasSset.toNat)
  pushtxFromBin := readPushTx
  evmtxFromBin := readEvmTx
  consensusFromBin := readConsensusParameterData

theorem plainExternals_lawful : plainExternals.Lawful where
  mapping_genesis _ := rfl
  mapping_num := by
    intro g ts h
    show (if ts / 1000000 < g then 0 else 1 + (ts / 1000000 - g) / 1) = _
    rw [if_neg (by omega), Nat.div_one]
    omega
  nonce_version _ := rfl
  prepared_number _ _ _ _ _ := rfl
  prepared_timestamp _ _ _ _ _ := rfl
  prepared_nonce _ _ _ _ _ := rfl
  prepared_baseFee _ _ _ _ _ := rfl
  prepared_prevRandao _ _ _ _ _ := rfl

end Silkworm
