import EosEvmNode.Silkworm

/-! # The engine plugin — choosing the block to start from

    `engine_plugin` reads the database of an earlier run and picks the EVM block
    from which conversion resumes: the stored LIB if there is one, the head
    otherwise, an explicit height if the operator gives one, and from there
    down to a block that carries a native block id in `prev_randao`. -/

namespace Engine

open Channels Silkworm

variable {Tx : Type}

/-- What the database answers to the reads of the plugin. -/
structure ChainData (Tx : Type) where
  readCanonicalHeader : Nat → Option BlockHeader
  readBlockByNumber : Nat → Option (Block Tx)
  /-- `read_stage_progress` of the headers stage. -/
  headersProgress : Nat
  /-- `RuntimeState::kLibProcessed`. -/
  storedEvmLib : Option Nat
  /-- `read_chain_config`, down to its `_version`. -/
  chainConfig : Option (Option UInt64)

def getHeadCanonicalHeader (db : ChainData Tx) : Option BlockHeader :=
  db.readCanonicalHeader db.headersProgress

def getGenesisHeader (db : ChainData Tx) : Option BlockHeader :=
  db.readCanonicalHeader 0

/-- The last header at or below the height that carries a native block id; the
    header at height 0, whatever it carries, when there is none. -/
def findBlockWithValidEosId (db : ChainData Tx) : Nat → Option BlockHeader
  | 0 => db.readCanonicalHeader 0
  | height + 1 =>
      match db.readCanonicalHeader (height + 1) with
      | some header =>
          if header.prevRandao ≠ 0 then some header
          else findBlockWithValidEosId db height
      | none => findBlockWithValidEosId db height

/-- The height to start the search from, when the operator gives none. -/
def defaultTarget (db : ChainData Tx) : Option Nat :=
  match db.storedEvmLib, getHeadCanonicalHeader db with
  | some lib, some header =>
      some (if lib > header.number then header.number else lib)
  | some lib, none => some lib
  | none, some header => some header.number
  | none, none => none

/-- The block to start from: the last one with a valid native block id at or
    below the target height. -/
def getCanonicalBlockAtHeight (db : ChainData Tx) (height : Option Nat) :
    Option (Block Tx) :=
  let target := match height with
    | none => defaultTarget db
    | some h => some h
  target.bind fun target =>
    (findBlockWithValidEosId db target).bind fun newHeader =>
      db.readBlockByNumber newHeader.number

/-- What an earlier run leaves in the database: canonical headers sit at their
    own height, and stored blocks are numbered and dated consistently. -/
structure ChainData.Sound (db : ChainData Tx) : Prop where
  header_number : ∀ n header, db.readCanonicalHeader n = some header →
    header.number = n
  block_number : ∀ n block, db.readBlockByNumber n = some block →
    block.header.number = n
  block_timestamp : ∀ n block genesisHeader,
    db.readBlockByNumber n = some block →
    db.readCanonicalHeader 0 = some genesisHeader →
    block.header.timestamp = genesisHeader.timestamp + n

/-- The search skips the blocks of a gap, which carry no native block id. -/
theorem findBlockWithValidEosId_of_gap {db : ChainData Tx} {n : Nat}
    {header : BlockHeader} (h : db.readCanonicalHeader n = some header)
    (hid : header.prevRandao ≠ 0) :
    ∀ k, (∀ m, n < m → m ≤ n + k → ∀ x ∈ db.readCanonicalHeader m,
        x.prevRandao = 0) →
      findBlockWithValidEosId db (n + k) = some header := by
  intro k
  induction k with
  | zero =>
      intro _
      cases n with
      | zero => exact h
      | succ n =>
          rw [Nat.add_zero, findBlockWithValidEosId, h]
          exact if_pos hid
  | succ k ih =>
      intro hgap
      have hrec := ih (fun m hlt hle => hgap m hlt (by omega))
      rw [← Nat.add_assoc, findBlockWithValidEosId]
      cases hx : db.readCanonicalHeader (n + k + 1) with
      | none => exact hrec
      | some x =>
          have hzero : x.prevRandao = 0 := hgap _ (by omega) (by omega) x hx
          simp only [hzero, ne_eq, not_true_eq_false, if_false]
          exact hrec

/-- A target inside the gap after a block leads back to that block. -/
theorem getCanonicalBlockAtHeight_of_gap {db : ChainData Tx} {n k : Nat}
    {header : BlockHeader} {block : Block Tx}
    (h : db.readCanonicalHeader n = some header) (hnum : header.number = n)
    (hid : header.prevRandao ≠ 0)
    (hgap : ∀ m, n < m → m ≤ n + k → ∀ x ∈ db.readCanonicalHeader m,
      x.prevRandao = 0)
    (hblock : db.readBlockByNumber n = some block) :
    getCanonicalBlockAtHeight db (some (n + k)) = some block := by
  show (findBlockWithValidEosId db (n + k)).bind _ = _
  rw [findBlockWithValidEosId_of_gap h hid k hgap, Option.bind_some, hnum]
  exact hblock

/-- The database that holds these blocks, newest first, and no LIB yet. -/
def storedData (blocks : List (Block Tx)) : ChainData Tx where
  readCanonicalHeader n :=
    (blocks.find? (fun b => b.header.number = n)).map (fun b => b.header)
  readBlockByNumber n := blocks.find? (fun b => b.header.number = n)
  headersProgress := (blocks.head?.map (fun b => b.header.number)).getD 0
  storedEvmLib := none
  chainConfig := none

/-- A database of consistently dated blocks is sound. -/
theorem storedData_sound {blocks : List (Block Tx)} {genesis : Nat}
    (h : ∀ b ∈ blocks, b.header.timestamp = genesis + b.header.number) :
    (storedData blocks).Sound := by
  have hnumber : ∀ n b, blocks.find? (fun b => b.header.number = n) = some b →
      b.header.number = n := by
    intro n b hb
    simpa using List.find?_some hb
  refine ⟨?_, hnumber, ?_⟩
  · intro n header hh
    obtain ⟨b, hb, rfl⟩ := Option.map_eq_some_iff.mp hh
    exact hnumber n b hb
  · intro n block genesisHeader hb hheader
    obtain ⟨g, hg, rfl⟩ := Option.map_eq_some_iff.mp hheader
    have hmem : block ∈ blocks := List.mem_of_find?_eq_some hb
    rw [h block hmem, hnumber n block hb, h g (List.mem_of_find?_eq_some hg),
      hnumber 0 g hg, Nat.add_zero]

/-- The start block is one of the stored blocks. -/
theorem readBlock_of_getCanonicalBlockAtHeight {db : ChainData Tx}
    {height : Option Nat} {block : Block Tx}
    (h : getCanonicalBlockAtHeight db height = some block) :
    ∃ n, db.readBlockByNumber n = some block := by
  obtain ⟨target, -, h⟩ := Option.bind_eq_some_iff.mp h
  obtain ⟨header, -, h⟩ := Option.bind_eq_some_iff.mp h
  exact ⟨header.number, h⟩

end Engine
