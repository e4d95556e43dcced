import EosEvmNode.Engine
import Mathlib.Data.List.Chain

/-! # The start block — the highest one with a native block id

    The block conversion resumes from is to be the last one, up to the target
    height, that carries a native block id.  The search goes down one height at a
    time and breaks at such a block; below height 0 it ends with the header it has
    read last, which is the header of height 0 whether it carries an id or not. -/

namespace Engine

open Channels Silkworm

variable {Tx : Type}

/-! ## The loop of the search -/

/-- `res && !is_zero(res->prev_randao)`. -/
def hasEosId (res : Option BlockHeader) : Bool :=
  match res with
  | some header => header.prevRandao ≠ 0
  | none => false

/-- The do-while loop over a `uint64_t`, with the heights it reads, in order.  The
    loop goes on where the height was positive before it was decremented; `fuel`
    bounds the number of passes. -/
def searchLoop (db : ChainData Tx) :
    Nat → UInt64 → List UInt64 × Except Failure (Option BlockHeader)
  | 0, _ => ([], .error .diverged)
  | fuel + 1, startHeight =>
      let res := db.readCanonicalHeader startHeight.toNat
      if hasEosId res then ([startHeight], .ok res)
      else if startHeight > 0 then
        let (heights, result) := searchLoop db fuel (startHeight - 1)
        (startHeight :: heights, result)
      else ([startHeight], .ok res)

/-- The heights are read one after the other, downwards from the start height. -/
structure ReadsDown (startHeight : UInt64) (heights : List UInt64) : Prop where
  first : heights.head? = some startHeight
  down : heights.IsChain (fun later earlier => later.toNat = earlier.toNat + 1)
  le : ∀ height ∈ heights, height ≤ startHeight

theorem ReadsDown.single (startHeight : UInt64) :
    ReadsDown startHeight [startHeight] where
  first := rfl
  down := List.isChain_singleton _
  le := by
    intro height h
    rw [List.mem_singleton.mp h]
    exact UInt64.le_refl _

theorem toNat_pred {h : UInt64} (hpos : h > 0) : h.toNat = (h - 1).toNat + 1 := by
  have hone : (1 : UInt64) ≤ h := by
    rw [UInt64.le_iff_toNat_le]
    exact UInt64.lt_iff_toNat_lt.mp hpos
  have hsub := UInt64.toNat_sub_of_le h 1 hone
  have hlt : 0 < h.toNat := UInt64.lt_iff_toNat_lt.mp hpos
  rw [hsub]
  show h.toNat = h.toNat - 1 + 1
  omega

theorem ReadsDown.cons {startHeight : UInt64} {heights : List UInt64}
    (hpos : startHeight > 0) (h : ReadsDown (startHeight - 1) heights) :
    ReadsDown startHeight (startHeight :: heights) where
  first := rfl
  down := by
    cases heights with
    | nil => exact List.isChain_singleton _
    | cons height rest =>
        obtain rfl : height = startHeight - 1 := Option.some.inj h.first
        exact List.isChain_cons_cons.mpr ⟨toNat_pred hpos, h.down⟩
  le := by
    intro height hmem
    rcases List.mem_cons.mp hmem with rfl | hmem
    · exact UInt64.le_refl _
    · have hle := UInt64.le_iff_toNat_le.mp (h.le height hmem)
      have hpred := toNat_pred hpos
      rw [UInt64.le_iff_toNat_le]
      omega

/-- **The loop ends**, with the header the search is to find, and reads no height
    above the one it starts from. -/
theorem searchLoop_eq (db : ChainData Tx) :
    ∀ (fuel : Nat) (startHeight : UInt64), startHeight.toNat < fuel →
      ∃ heights, ReadsDown startHeight heights ∧
        searchLoop db fuel startHeight
          = (heights, .ok (findBlockWithValidEosId db startHeight.toNat)) := by
  intro fuel
  induction fuel with
  | zero =>
      intro startHeight h
      exact absurd h (Nat.not_lt_zero _)
  | succ fuel ih =>
      intro startHeight h
      rw [searchLoop]
      by_cases hpos : startHeight > 0
      · have hpred := toNat_pred hpos
        rw [hpred, findBlockWithValidEosId, ← hpred]
        cases hread : db.readCanonicalHeader startHeight.toNat with
        | none =>
            obtain ⟨heights, hdown, hrec⟩ := ih (startHeight - 1) (by omega)
            refine ⟨startHeight :: heights, hdown.cons hpos, ?_⟩
            simp only [hasEosId, Bool.false_eq_true, if_false, if_pos hpos, hrec]
        | some header =>
            by_cases hid : header.prevRandao ≠ 0
            · refine ⟨[startHeight], ReadsDown.single _, ?_⟩
              simp only [hasEosId, decide_eq_true_eq, if_pos hid]
            · obtain ⟨heights, hdown, hrec⟩ := ih (startHeight - 1) (by omega)
              refine ⟨startHeight :: heights, hdown.cons hpos, ?_⟩
              simp only [hasEosId, decide_eq_true_eq, if_neg hid, if_pos hpos, hrec]
      · -- at height 0 the last header read is the result, with an id or without
        have hzero : startHeight.toNat = 0 := by
          have := mt UInt64.lt_iff_toNat_lt.mpr hpos
          simpa using this
        refine ⟨[startHeight], ReadsDown.single _, ?_⟩
        rw [hzero, findBlockWithValidEosId, if_neg hpos]
        split <;> rfl

/-! ## What the search finds -/

/-- The canonical header at this height carries a native block id. -/
def Marked (db : ChainData Tx) (height : Nat) : Prop :=
  ∃ header, db.readCanonicalHeader height = some header ∧ header.prevRandao ≠ 0

/-- **What the search returns** is the highest header with an id; or the header of
    height 0. -/
theorem findBlockWithValidEosId_spec {db : ChainData Tx} {header : BlockHeader} :
    ∀ {height : Nat}, findBlockWithValidEosId db height = some header →
      ∃ n ≤ height, db.readCanonicalHeader n = some header ∧
        (∀ m, n < m → m ≤ height → ¬ Marked db m) ∧
        (header.prevRandao ≠ 0 ∨ n = 0) := by
  intro height
  induction height with
  | zero =>
      intro h
      exact ⟨0, Nat.le_refl _, h, fun m hlt hle => by omega, Or.inr rfl⟩
  | succ height ih =>
      intro h
      rw [findBlockWithValidEosId] at h
      -- an unmarked height is passed over
      have hpass : ¬ Marked db (height + 1) →
          findBlockWithValidEosId db height = some header →
          ∃ n ≤ height + 1, db.readCanonicalHeader n = some header ∧
            (∀ m, n < m → m ≤ height + 1 → ¬ Marked db m) ∧
            (header.prevRandao ≠ 0 ∨ n = 0) := by
        intro hnot hrec
        obtain ⟨n, hle, hread, habove, hid⟩ := ih hrec
        refine ⟨n, by omega, hread, ?_, hid⟩
        intro m hlt hm
        rcases Nat.lt_or_eq_of_le hm with hm | rfl
        · exact habove m hlt (by omega)
        · exact hnot
      cases hread : db.readCanonicalHeader (height + 1) with
      | none =>
          rw [hread] at h
          refine hpass ?_ h
          rintro ⟨x, hx, -⟩
          rw [hread] at hx
          cases hx
      | some x =>
          simp only [hread] at h
          by_cases hid : x.prevRandao ≠ 0
          · rw [if_pos hid] at h
            obtain rfl := Option.some.inj h
            exact ⟨height + 1, Nat.le_refl _, hread, fun m hlt hle => by omega,
              Or.inl hid⟩
          · rw [if_neg hid] at h
            refine hpass ?_ h
            rintro ⟨y, hy, hne⟩
            obtain rfl := Option.some.inj (hread.symm.trans hy)
            exact hid hne

/-- Without an id at any height the search ends at height 0. -/
theorem findBlockWithValidEosId_of_unmarked {db : ChainData Tx} :
    ∀ {height : Nat}, (∀ m ≤ height, ¬ Marked db m) →
      findBlockWithValidEosId db height = db.readCanonicalHeader 0 := by
  intro height
  induction height with
  | zero => intro _; rfl
  | succ height ih =>
      intro h
      have hrec := ih (fun m hm => h m (by omega))
      rw [findBlockWithValidEosId]
      cases hread : db.readCanonicalHeader (height + 1) with
      | none => exact hrec
      | some x =>
          have hzero : ¬ x.prevRandao ≠ 0 :=
            fun hne => h (height + 1) (Nat.le_refl _) ⟨x, hread, hne⟩
          simp only [if_neg hzero]
          exact hrec

/-! ## The start block -/

/-- How silkworm stores blocks: the canonical header of a height has that number,
    and the block read by a number is the one under the canonical header. -/
structure ChainData.Canonical (db : ChainData Tx) : Prop where
  header_number : ∀ n header, db.readCanonicalHeader n = some header →
    header.number = n
  block_header : ∀ n block, db.readBlockByNumber n = some block →
    db.readCanonicalHeader n = some block.header

/-- The height the search is to start from: the given one, otherwise the stored LIB,
    not above the head, otherwise the head. -/
def startTarget (db : ChainData Tx) : Option Nat → Option Nat
  | some height => some height
  | none =>
      let head := (getHeadCanonicalHeader db).map (fun header => header.number)
      match db.storedEvmLib with
      | some lib => some (head.elim lib (min lib))
      | none => head

theorem getCanonicalBlockAtHeight_eq (db : ChainData Tx) (height : Option Nat) :
    getCanonicalBlockAtHeight db height
      = (startTarget db height).bind fun target =>
          (findBlockWithValidEosId db target).bind fun newHeader =>
            db.readBlockByNumber newHeader.number := by
  cases height with
  | some height => rfl
  | none =>
      have htarget : defaultTarget db = startTarget db none := by
        rw [defaultTarget, startTarget]
        cases hlib : db.storedEvmLib with
        | none => cases getHeadCanonicalHeader db <;> rfl
        | some lib =>
            cases getHeadCanonicalHeader db with
            | none => rfl
            | some header =>
                show some _ = some (min lib header.number)
                congr 1
                split <;> omega
      rw [← htarget]
      rfl

/-- The block carries a native block id, and no canonical header up to the target is
    higher and carries one too. -/
structure HighestUsable (db : ChainData Tx) (target : Nat) (block : Block Tx) :
    Prop where
  usable : block.header.prevRandao ≠ 0
  le_target : block.header.number ≤ target
  highest : ∀ n header, db.readCanonicalHeader n = some header →
    header.prevRandao ≠ 0 → header.number ≤ target →
    header.number ≤ block.header.number

section StartBlock

variable {db : ChainData Tx} {height : Option Nat} {block : Block Tx} {target : Nat}

/-- Where the start block lies, with an id or without. -/
theorem startBlock_spec (hdb : db.Canonical) (htarget : startTarget db height = some target)
    (h : getCanonicalBlockAtHeight db height = some block) :
    block.header.number ≤ target ∧
      db.readBlockByNumber block.header.number = some block ∧
      (∀ m, block.header.number < m → m ≤ target → ¬ Marked db m) ∧
      (block.header.prevRandao ≠ 0 ∨ block.header.number = 0) := by
  rw [getCanonicalBlockAtHeight_eq, htarget, Option.bind_some] at h
  obtain ⟨header, hfind, hblock⟩ := Option.bind_eq_some_iff.mp h
  obtain ⟨n, hle, hread, habove, hid⟩ := findBlockWithValidEosId_spec hfind
  have hnum := hdb.header_number n header hread
  rw [hnum] at hblock
  -- the block read is the one under the header that was found
  have hsame : header = block.header :=
    Option.some.inj (hread.symm.trans (hdb.block_header n block hblock))
  rw [← hsame, hnum]
  exact ⟨hle, hblock, habove, hid⟩

theorem highestUsable_of_id (hdb : db.Canonical)
    (htarget : startTarget db height = some target)
    (h : getCanonicalBlockAtHeight db height = some block)
    (hid : block.header.prevRandao ≠ 0) : HighestUsable db target block := by
  obtain ⟨hle, -, habove, -⟩ := startBlock_spec hdb htarget h
  refine ⟨hid, hle, ?_⟩
  intro n header hread hne hn
  by_contra hlt
  have hnum := hdb.header_number n header hread
  exact habove n (by omega) (by omega) ⟨header, hread, hne⟩

/-- A header with an id, up to the target, keeps the search away from height 0. -/
theorem id_of_marked (hdb : db.Canonical) (htarget : startTarget db height = some target)
    (h : getCanonicalBlockAtHeight db height = some block) {n : Nat} (hn : n ≤ target)
    (hmarked : Marked db n) : block.header.prevRandao ≠ 0 := by
  obtain ⟨-, hblock, habove, hid⟩ := startBlock_spec hdb htarget h
  rcases hid with hid | hzero
  · exact hid
  · have hn0 : n = 0 := by
      by_contra hpos
      exact habove n (by omega) hn hmarked
    obtain ⟨header, hread, hne⟩ := hmarked
    have hheader := hdb.block_header _ block hblock
    rw [hzero] at hheader
    rw [hn0] at hread
    exact Option.some.inj (hread.symm.trans hheader) ▸ hne

end StartBlock

/-- **The start block is the highest usable one** exactly when some header up to the
    target carries an id, or there is no block 0 to fall back to.  In any case it
    lies below no usable one, and the loop ends without reading a height above the
    one it starts from. -/
theorem start_block_highest_iff {db : ChainData Tx} (hdb : db.Canonical)
    (height : Option Nat) :
    ((∀ block, getCanonicalBlockAtHeight db height = some block →
        ∃ target ∈ startTarget db height, HighestUsable db target block) ↔
      ∀ target ∈ startTarget db height,
        (∃ n ≤ target, Marked db n) ∨ db.readBlockByNumber 0 = none) ∧
    (∀ block target, getCanonicalBlockAtHeight db height = some block →
      startTarget db height = some target →
      block.header.number ≤ target ∧
      ∀ n, block.header.number < n → n ≤ target → ¬ Marked db n) ∧
    ∀ (startHeight : UInt64) (fuel : Nat), startHeight.toNat < fuel →
      ∃ heights, ReadsDown startHeight heights ∧
        searchLoop db fuel startHeight
          = (heights, .ok (findBlockWithValidEosId db startHeight.toNat)) := by
  refine ⟨⟨?_, ?_⟩, ?_, fun startHeight fuel => searchLoop_eq db fuel startHeight⟩
  · intro h target htarget
    by_cases hmarked : ∃ n ≤ target, Marked db n
    · exact Or.inl hmarked
    · refine Or.inr ?_
      have hnone : ∀ n ≤ target, ¬ Marked db n := fun n hn hm => hmarked ⟨n, hn, hm⟩
      cases hblock : db.readBlockByNumber 0 with
      | none => rfl
      | some block =>
          -- block 0 is the start block, without an id
          have hread := hdb.block_header 0 block hblock
          have hnum := hdb.header_number 0 _ hread
          have hget : getCanonicalBlockAtHeight db height = some block := by
            rw [getCanonicalBlockAtHeight_eq, show startTarget db height = _ from htarget,
              Option.bind_some, findBlockWithValidEosId_of_unmarked hnone, hread,
              Option.bind_some, hnum, hblock]
          obtain ⟨_, -, husable⟩ := h block hget
          exact absurd ⟨_, hread, husable.usable⟩ (hnone 0 (Nat.zero_le _))
  · intro h block hget
    cases htarget : startTarget db height with
    | none =>
        rw [getCanonicalBlockAtHeight_eq, htarget] at hget
        cases hget
    | some target =>
        refine ⟨target, rfl, highestUsable_of_id hdb htarget hget ?_⟩
        rcases h target htarget with ⟨n, hn, hmarked⟩ | hnone
        · exact id_of_marked hdb htarget hget hn hmarked
        · obtain ⟨-, hblock, -, hid⟩ := startBlock_spec hdb htarget hget
          rcases hid with hid | hzero
          · exact hid
          · rw [hzero, hnone] at hblock
            cases hblock
  · intro block target hget htarget
    obtain ⟨hle, -, habove, -⟩ := startBlock_spec hdb htarget hget
    exact ⟨hle, habove⟩

/-! ## A genesis block without an id -/

/-- Stored blocks, numbered consistently, are what silkworm stores. -/
theorem storedData_canonical (blocks : List (Block Tx)) :
    (storedData blocks).Canonical where
  header_number := by
    intro n header h
    obtain ⟨b, hb, rfl⟩ := Option.map_eq_some_iff.mp h
    simpa using List.find?_some hb
  block_header := by
    intro n block h
    show (blocks.find? (fun b => b.header.number = n)).map (fun b => b.header)
      = some block.header
    rw [show blocks.find? (fun b => b.header.number = n) = some block from h]
    rfl

/-- Block `number`, ten seconds after 1970 and later, with this `prev_randao`. -/
def storedBlock (number : Nat) (prevRandao : Bytes32) : Block Bytes where
  header :=
    { parentHash := 0
      beneficiary := []
      transactionsRoot := 0
      difficulty := 1
      number := number
      gasLimit := 0x7ffffffffff
      timestamp := 10 + number
      prevRandao := prevRandao
      nonce := 7
      baseFeePerGas := none }
  transactions := []
  consensusParameterIndex := none
  gasPrices := none
  irreversible := false

/-- Block 2 lies in a gap of the native chain; the search goes on to block 1. -/
theorem start_block_highest_storedGap :
    getCanonicalBlockAtHeight
        (storedData [storedBlock 2 0, storedBlock 1 9, storedBlock 0 0]) none
      = some (storedBlock 1 9) ∧
    ∃ target ∈ startTarget
        (storedData [storedBlock 2 0, storedBlock 1 9, storedBlock 0 0]) none,
      HighestUsable (storedData [storedBlock 2 0, storedBlock 1 9, storedBlock 0 0])
        target (storedBlock 1 9) := by
  have hfound : getCanonicalBlockAtHeight
      (storedData [storedBlock 2 0, storedBlock 1 9, storedBlock 0 0]) none
        = some (storedBlock 1 9) := rfl
  refine ⟨hfound, ?_⟩
  refine (start_block_highest_iff (storedData_canonical _) none).1.mpr ?_ _ hfound
  intro target htarget
  obtain rfl : 2 = target := Option.some.inj htarget
  exact Or.inl ⟨1, by omega, (storedBlock 1 9).header, rfl, by decide⟩

/-- **A block without an id is returned** from a chain in which no block, not even the
    genesis block, carries one. -/
theorem not_usable_storedUnmarked :
    (storedData [storedBlock 1 0, storedBlock 0 0]).Canonical ∧
    getCanonicalBlockAtHeight (storedData [storedBlock 1 0, storedBlock 0 0]) none
      = some (storedBlock 0 0) ∧
    ¬ ∃ target ∈ startTarget (storedData [storedBlock 1 0, storedBlock 0 0]) none,
      HighestUsable (storedData [storedBlock 1 0, storedBlock 0 0]) target
        (storedBlock 0 0) := by
  refine ⟨storedData_canonical _, rfl, ?_⟩
  rintro ⟨target, -, husable⟩
  exact husable.usable rfl

end Engine
