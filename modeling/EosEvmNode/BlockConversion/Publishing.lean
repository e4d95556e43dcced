import EosEvmNode.BlockConversion.Handler
import Mathlib.Data.List.Nodup
import Mathlib.Data.List.Chain

/-! # The published EVM chain — numbers and parent hashes

    Blocks are changed in place before they are published and may be reopened by
    a fork afterwards, so the list of EVM blocks and the log of published blocks
    are described together.  `Linked` says of both that every block but the last
    is the one published last under its number, and that every block names as
    its parent the one published last under the number before.

    Nothing is asked of the native blocks here. -/

namespace BlockConversion

open Channels Silkworm Engine Runs

variable {Tx : Type}

/-- The most recently published block of a number; the log is kept newest
    first. -/
def lastPublished (published : List (Block Tx)) (k : Nat) : Option (Block Tx) :=
  published.find? (fun p => p.header.number = k)

theorem lastPublished_cons_eq {p : Block Tx} {k : Nat}
    (published : List (Block Tx)) (h : p.header.number = k) :
    lastPublished (p :: published) k = some p := by
  rw [lastPublished, List.find?_cons_of_pos (by simpa using h)]

theorem lastPublished_cons_ne {p : Block Tx} {k : Nat}
    (published : List (Block Tx)) (h : p.header.number ≠ k) :
    lastPublished (p :: published) k = lastPublished published k := by
  rw [lastPublished, List.find?_cons_of_neg (by simpa using h), lastPublished]

/-- The block names as its parent what is published last under the number
    before. -/
def ParentPublished (E : Env Tx) (published : List (Block Tx)) (e : Block Tx) :
    Prop :=
  ∃ q, lastPublished published (e.header.number - 1) = some q ∧
    e.header.parentHash = E.libs.hash q.header

/-- What the log says about each of its entries: above the start block its
    parent was published last before it, and numbers grow by at most one. -/
def LogLinked (E : Env Tx) (start : Nat) (published : List (Block Tx)) : Prop :=
  ∀ p older, p :: older <:+ published →
    (start < p.header.number → ParentPublished E older p) ∧
    ∀ q ∈ older.head?, p.header.number ≤ q.header.number + 1

/-- Consecutive EVM block numbers, newest first. -/
def Consecutive (evms : List (Block Tx)) : Prop :=
  evms.IsChain (fun x y => x.header.number = y.header.number + 1)

/-- The EVM blocks and the published log fit together. -/
structure Linked (E : Env Tx) (start : Nat) (evms published : List (Block Tx)) :
    Prop where
  nonempty : evms ≠ []
  consecutive : Consecutive evms
  from_start : ∀ e ∈ evms, start ≤ e.header.number
  settled : ∀ e ∈ evms.tail, lastPublished published e.header.number = some e
  parents : ∀ e ∈ evms, start < e.header.number → ParentPublished E published e
  head_le : ∀ e ∈ evms.head?, ∀ p ∈ published.head?,
    e.header.number ≤ p.header.number + 1
  log : LogLinked E start published

/-! ## Consecutive numbers -/

/-- Numbers fall from each block to every older one. -/
theorem Consecutive.pairwise {evms : List (Block Tx)} (h : Consecutive evms) :
    evms.Pairwise (fun x y => y.header.number < x.header.number) := by
  have htrans : Trans (fun x y : Block Tx => y.header.number < x.header.number)
      (fun x y : Block Tx => y.header.number < x.header.number)
      (fun x y : Block Tx => y.header.number < x.header.number) :=
    ⟨fun hxy hyz => Nat.lt_trans hyz hxy⟩
  refine List.isChain_iff_pairwise.mp (List.IsChain.imp ?_ h)
  intro x y hxy
  omega

theorem Consecutive.tail_lt {e : Block Tx} {es : List (Block Tx)}
    (h : Consecutive (e :: es)) :
    ∀ x ∈ es, x.header.number < e.header.number :=
  (List.pairwise_cons.mp h.pairwise).1

/-- The numbers identify the blocks. -/
theorem Consecutive.eq_of_number {evms : List (Block Tx)} (h : Consecutive evms)
    {x y : Block Tx} (hx : x ∈ evms) (hy : y ∈ evms)
    (hnum : x.header.number = y.header.number) : x = y := by
  refine List.inj_on_of_nodup_map
    (f := fun e : Block Tx => e.header.number) ?_ hx hy hnum
  refine List.pairwise_map.mpr (List.Pairwise.imp ?_ h.pairwise)
  intro a b hab
  omega

/-- The front block, the last of the list, has the lowest number. -/
theorem Consecutive.front_le {evms : List (Block Tx)} (h : Consecutive evms) :
    ∀ front ∈ evms.getLast?, ∀ e ∈ evms,
      front.header.number ≤ e.header.number := by
  intro front hfront e he
  obtain ⟨newer, rfl⟩ := List.getLast?_eq_some_iff.mp hfront
  rcases List.mem_append.mp he with hmem | hmem
  · have hlt := (List.pairwise_append.mp h.pairwise).2.2 e hmem front
      (List.mem_singleton_self _)
    omega
  · rw [List.mem_singleton.mp hmem]

/-- Only the number of the head counts. -/
theorem Consecutive.replace_head {e e' : Block Tx} {es : List (Block Tx)}
    (h : Consecutive (e :: es)) (hnum : e'.header.number = e.header.number) :
    Consecutive (e' :: es) := by
  rw [Consecutive, List.isChain_cons] at h ⊢
  refine ⟨?_, h.2⟩
  intro y hy
  rw [hnum]
  exact h.1 y hy

/-! ## The phases -/

section Phases

variable {E : Env Tx} {start : Nat} {published : List (Block Tx)}

/-- A change of the last block that keeps its number and its parent. -/
theorem Linked.replace_head {e e' : Block Tx} {es : List (Block Tx)}
    (h : Linked E start (e :: es) published)
    (hnum : e'.header.number = e.header.number)
    (hpar : e'.header.parentHash = e.header.parentHash) :
    Linked E start (e' :: es) published where
  nonempty := List.cons_ne_nil _ _
  consecutive := h.consecutive.replace_head hnum
  from_start := by
    intro x hx
    rcases List.mem_cons.mp hx with rfl | hmem
    · rw [hnum]
      exact h.from_start e List.mem_cons_self
    · exact h.from_start x (List.mem_cons_of_mem _ hmem)
  settled := h.settled
  parents := by
    intro x hx hlt
    rcases List.mem_cons.mp hx with rfl | hmem
    · rw [ParentPublished, hnum, hpar]
      exact h.parents e List.mem_cons_self (hnum ▸ hlt)
    · exact h.parents x (List.mem_cons_of_mem _ hmem) hlt
  head_le := by
    intro x hx p hp
    obtain rfl := Option.some.inj hx
    rw [hnum]
    exact h.head_le e rfl p hp
  log := h.log

/-- Popping blocks from the back. -/
theorem Linked.of_suffix {evms : List (Block Tx)} {e : Block Tx}
    {es : List (Block Tx)} (h : Linked E start evms published)
    (hsuf : e :: es <:+ evms) : Linked E start (e :: es) published where
  nonempty := List.cons_ne_nil _ _
  consecutive := List.IsChain.suffix h.consecutive hsuf
  from_start := fun x hx => h.from_start x (hsuf.subset hx)
  settled := by
    intro x hx
    -- what lies below the new head lay below the old one
    obtain ⟨newer, rfl⟩ := hsuf
    refine h.settled x ?_
    cases newer with
    | nil => exact hx
    | cons y newer =>
        exact List.mem_append_right _ (List.mem_cons_of_mem _ hx)
  parents := fun x hx => h.parents x (hsuf.subset hx)
  head_le := by
    intro x hx p hp
    obtain rfl := Option.some.inj hx
    obtain ⟨newer, rfl⟩ := hsuf
    cases newer with
    | nil => exact h.head_le e rfl p hp
    | cons y newer =>
        have hlt := h.consecutive.tail_lt e
          (List.mem_append_right _ List.mem_cons_self)
        have hle := h.head_le y rfl p hp
        omega
  log := h.log

/-- Popping blocks from the front, but not all of them. -/
theorem Linked.of_prefix {kept old : List (Block Tx)}
    (h : Linked E start (kept ++ old) published) (hne : kept ≠ []) :
    Linked E start kept published where
  nonempty := hne
  consecutive := List.IsChain.left_of_append h.consecutive
  from_start := fun x hx => h.from_start x (List.mem_append_left _ hx)
  settled := by
    intro x hx
    refine h.settled x ?_
    rw [List.tail_append_of_ne_nil hne]
    exact List.mem_append_left _ hx
  parents := fun x hx => h.parents x (List.mem_append_left _ hx)
  head_le := by
    intro x hx
    refine h.head_le x ?_
    rw [List.head?_append_of_ne_nil kept hne]
    exact hx
  log := h.log

/-- One iteration of the publishing loop: the last block is settled and
    published, the next one names it as its parent. -/
theorem Linked.extend {startBlock last : Block Tx} {older : List (Block Tx)}
    (hE : Started E startBlock) (h : Linked E start (last :: older) published) :
    Linked E start (generateNewEvmBlock E (setTransactionsRoot E last)
        :: setTransactionsRoot E last :: older)
      (setTransactionsRoot E last :: published) := by
  have hlast := h.from_start last List.mem_cons_self
  have holder := h.consecutive.tail_lt
  have hnew : (generateNewEvmBlock E (setTransactionsRoot E last)).header.number
      = last.header.number + 1 := generateNewEvmBlock_number hE _
  -- blocks below the published one are looked up as before
  have hbelow : ∀ k, k < last.header.number →
      lastPublished (setTransactionsRoot E last :: published) k
        = lastPublished published k := by
    intro k hk
    refine lastPublished_cons_ne published ?_
    rw [setTransactionsRoot_number]
    omega
  have hself : lastPublished (setTransactionsRoot E last :: published)
      last.header.number = some (setTransactionsRoot E last) :=
    lastPublished_cons_eq published rfl
  have hlastpar : start < last.header.number →
      ParentPublished E published (setTransactionsRoot E last) :=
    fun hlt => h.parents last List.mem_cons_self hlt
  refine ⟨List.cons_ne_nil _ _, ?_, ?_, ?_, ?_, ?_, ?_⟩
  · refine List.isChain_cons_cons.mpr ⟨hnew, ?_⟩
    exact h.consecutive.replace_head rfl
  · intro x hx
    rcases List.mem_cons.mp hx with rfl | hx
    · omega
    · rcases List.mem_cons.mp hx with rfl | hmem
      · exact hlast
      · exact h.from_start x (List.mem_cons_of_mem _ hmem)
  · intro x hx
    rcases List.mem_cons.mp hx with rfl | hmem
    · exact hself
    · rw [hbelow _ (holder x hmem)]
      exact h.settled x hmem
  · intro x hx hlt
    rcases List.mem_cons.mp hx with rfl | hx
    · refine ⟨setTransactionsRoot E last, ?_, rfl⟩
      rw [hnew, Nat.add_sub_cancel]
      exact hself
    · rcases List.mem_cons.mp hx with rfl | hmem
      · rw [setTransactionsRoot_number] at hlt
        obtain ⟨q, hq, hpar⟩ := hlastpar hlt
        refine ⟨q, ?_, hpar⟩
        rw [hbelow _ (by rw [setTransactionsRoot_number]; omega)]
        exact hq
      · obtain ⟨q, hq, hpar⟩ :=
          h.parents x (List.mem_cons_of_mem _ hmem) hlt
        refine ⟨q, ?_, hpar⟩
        rw [hbelow _ (by have := holder x hmem; omega)]
        exact hq
  · intro x hx p hp
    obtain rfl := Option.some.inj hx
    obtain rfl := Option.some.inj hp
    exact Nat.le_of_eq hnew
  · intro p rest hsuf
    rcases List.suffix_cons_iff.mp hsuf with heq | hsuf
    · obtain ⟨rfl, rfl⟩ := List.cons.inj heq
      exact ⟨hlastpar, fun q hq => h.head_le last rfl q hq⟩
    · exact h.log p rest hsuf

end Phases

/-- `Linked` holds when `load_head` returns. -/
theorem linked_init (E : Env Tx) (startBlock : Block Tx) :
    Linked E startBlock.header.number [startBlock] [] where
  nonempty := List.cons_ne_nil _ _
  consecutive := List.isChain_singleton _
  from_start := by
    intro e he
    rw [List.mem_singleton.mp he]
  settled := fun e he => by cases he
  parents := by
    intro e he hlt
    rw [List.mem_singleton.mp he] at hlt
    omega
  head_le := fun e _ p hp => by cases hp
  log := by
    intro p older hsuf
    cases List.suffix_nil.mp hsuf

/-- `Linked` is an invariant of the EVM side. -/
theorem linked_invariant {E : Env Tx} {startBlock : Block Tx}
    (hE : Started E startBlock) (delivered : NativeBlock → Prop) :
    EvmInvariant E delivered (Linked E startBlock.header.number) where
  rollback := by
    intro evms published e es txs nb hsuf _ h
    exact (h.of_suffix hsuf).replace_head rfl rfl
  extend := fun last older published h => h.extend hE
  add := by
    intro curr older published b curr' written _ hadd h
    obtain ⟨txs, -, hcurr', -⟩ := addNativeBlock_ok hE.lawful hadd
    rw [hcurr']
    exact h.replace_head rfl rfl
  prune := fun kept old published hne h => h.of_prefix hne

/-- **The published EVM chain always links.** -/
theorem evm_chain_links {X : Externals Tx} {db : ChainData Tx}
    {height : Option Nat} {startBlock : Block Tx} {E : Env Tx} {s₀ : State Tx}
    (hload : Loaded X db height startBlock E s₀)
    {adm : State Tx → NativeBlock → Prop} {bs : List NativeBlock} {s : State Tx}
    (hrun : Reach (nativeBlocksHandler E) adm s₀ bs s) :
    s.evmBlocks ≠ [] ∧
    Consecutive s.evmBlocks ∧
    (∀ e ∈ s.evmBlocks.tail, lastPublished s.published e.header.number = some e) ∧
    s.evmBlocks.IsChain (fun x y => x.header.parentHash = E.libs.hash y.header) ∧
    LogLinked E startBlock.header.number s.published := by
  obtain ⟨evmLib₀, rfl⟩ := hload.initial
  have h := (linked_invariant hload.started _).reach
    (linked_init E startBlock) hrun
  refine ⟨h.nonempty, h.consecutive, h.settled, ?_, h.log⟩
  -- the parent of a block is the one published last, which is its predecessor
  rw [List.isChain_iff_getElem]
  intro i hi
  have hnum := List.isChain_iff_getElem.mp h.consecutive i hi
  have hstart := h.from_start s.evmBlocks[i + 1] (List.getElem_mem _)
  obtain ⟨q, hq, hpar⟩ := h.parents s.evmBlocks[i] (List.getElem_mem _) (by omega)
  have htail : s.evmBlocks[i + 1] ∈ s.evmBlocks.tail := by
    rw [List.mem_iff_getElem]
    exact ⟨i, by rw [List.length_tail]; omega, List.getElem_tail _⟩
  have hself := h.settled _ htail
  rw [hnum, Nat.add_sub_cancel, hself] at hq
  rw [hpar, ← Option.some.inj hq]

/-- A fork after EVM block 1 has been published: native block 3 is replaced. -/
def plainFork : List NativeBlock :=
  [plainNative 2 0 0 21 1 [plainPayload 0 0 [1, 2]],
   plainNative 3 0 0 22 1 [plainPayload 0 0 [3]],
   plainNative 3 1 0 23 1 []]

theorem evm_chain_links_plainFork :
    ∃ s, Reach (nativeBlocksHandler plainEnv) (fun _ _ => True)
        (initialState plainGenesis 0) plainFork s ∧
      s.evmBlocks.length = 3 ∧
      LogLinked plainEnv plainGenesis.header.number s.published := by
  have hcheck : checkRun (nativeBlocksHandler plainEnv) (fun _ _ => True)
      (initialState plainGenesis 0) plainFork = true := by decide +kernel
  obtain ⟨s, hs⟩ := exists_reach hcheck
  have hlen : s.evmBlocks.length = 3 :=
    hs.eval (f := fun s => s.evmBlocks.length) (by decide +kernel)
  exact ⟨s, hs, hlen, (evm_chain_links (plainEnv_loaded 0) hs).2.2.2.2⟩

end BlockConversion
