import EosEvmNode.BlockConversion.Safety

/-! # Before genesis — a filter in two units

    A native block dated at or before genesis is to be kept as the only native
    block and to change nothing else.  The filter compares microseconds with
    seconds, so it lets most of these blocks through.  What it does catch stays
    at the bottom of the native blocks (`Grounded`) until it becomes
    irreversible: then its EVM block number 0 makes the LIB computation wrap. -/

namespace BlockConversion

open Channels Silkworm Engine Runs

variable {Tx : Type}

/-- Dated at or before genesis, both in microseconds. -/
def BeforeGenesis (E : Env Tx) (b : NativeBlock) : Prop :=
  b.timestamp ≤ E.bm.genesisTimestamp * 1000000

/-- The handler gets as far as the removal of irreversible blocks. -/
def LibComputed (E : Env Tx) (s : State Tx) (b : NativeBlock) : Prop :=
  ¬ b.timestamp ≤ E.bm.genesisTimestamp ∧
  ∃ t u curr older added,
    linkNativeBlock E s b = .ok (some t) ∧
    extendEvmChain E (E.evmNum b) (E.evmNum b)
      { t with nativeBlocks := b :: t.nativeBlocks } = .ok u ∧
    u.evmBlocks = curr :: older ∧ addNativeBlock E curr b = .ok added

/-- The block becomes the only native block and touches nothing of the EVM
    chain. -/
def KeptOut (E : Env Tx) (s : State Tx) (b : NativeBlock) : Prop :=
  (∃ s', nativeBlocksHandler E s b = .ok s' ∧ s'.nativeBlocks = [b] ∧
    s'.evmBlocks = s.evmBlocks ∧ s'.evmLib = s.evmLib ∧
    s'.published = s.published) ∧
  ¬ LibComputed E s b

/-- The filter catches the block, or it is the only native block already and is
    delivered again. -/
def Caught (E : Env Tx) (s : State Tx) (b : NativeBlock) : Prop :=
  b.timestamp ≤ E.bm.genesisTimestamp ∨ (s.nativeBlocks = [b] ∧ b.id ≠ b.prev)

instance (E : Env Tx) (b : NativeBlock) : Decidable (BeforeGenesis E b) :=
  inferInstanceAs (Decidable (_ ≤ _))

instance (E : Env Tx) (s : State Tx) (b : NativeBlock) :
    Decidable (Caught E s b) :=
  inferInstanceAs (Decidable (_ ∨ _))

section Filter

variable {E : Env Tx} {s : State Tx} {b : NativeBlock}

theorem handler_of_filtered (h : b.timestamp ≤ E.bm.genesisTimestamp) :
    nativeBlocksHandler E s b = .ok { s with nativeBlocks := [b] } := by
  rw [nativeBlocksHandler, if_pos h]

/-- The only native block, delivered again, is a duplicate. -/
theorem link_of_alone (hnat : s.nativeBlocks = [b]) (hid : b.id ≠ b.prev) :
    linkNativeBlock E s b = .ok none := by
  have hcached : isCached s b.id = true := by
    rw [isCached, hnat]
    simp
  rw [linkNativeBlock, hnat]
  simp only [if_neg hid, if_pos hcached]

/-- **What the filter does for any block**: it is kept out exactly when it is
    caught. -/
theorem keptOut_iff : KeptOut E s b ↔ Caught E s b := by
  constructor
  · rintro ⟨⟨s', hstep, hnat, -, -, -⟩, hlib⟩
    by_cases hgen : b.timestamp ≤ E.bm.genesisTimestamp
    · exact Or.inl hgen
    · rw [nativeBlocksHandler, if_neg hgen] at hstep
      obtain ⟨r, hlink, happ⟩ := bind_ok hstep
      cases r with
      | some t =>
          obtain ⟨u, curr, older, curr', written, ha⟩ := appendNativeBlock_ok happ
          exact absurd ⟨hgen, t, u, curr, older, _, hlink, ha.extended, ha.evms,
            ha.added⟩ hlib
      | none =>
          -- a duplicate changes nothing, so `b` was the only native block
          obtain rfl := Except.ok.inj happ
          refine Or.inr ⟨hnat, ?_⟩
          intro hid
          rw [linkNativeBlock, hnat] at hlink
          simp only [if_pos hid] at hlink
          cases hlink
  · rintro (hgen | ⟨hnat, hid⟩)
    · exact ⟨⟨_, handler_of_filtered hgen, rfl, rfl, rfl, rfl⟩,
        fun hlib => hlib.1 hgen⟩
    · by_cases hgen : b.timestamp ≤ E.bm.genesisTimestamp
      · exact ⟨⟨_, handler_of_filtered hgen, rfl, rfl, rfl, rfl⟩,
          fun hlib => hlib.1 hgen⟩
      · have hlink := link_of_alone (E := E) hnat hid
        refine ⟨⟨s, ?_, hnat, rfl, rfl, rfl⟩, ?_⟩
        · rw [nativeBlocksHandler, if_neg hgen, hlink]
          rfl
        · rintro ⟨-, t, u, curr, older, added, hlink', -⟩
          rw [hlink] at hlink'
          cases hlink'

end Filter

/-! ## Sequences that start before genesis -/

/-- `block_mapping` puts what is dated before genesis into EVM block 0. -/
def MapsBeforeGenesis (E : Env Tx) : Prop :=
  ∀ ts, ts / 1000000 < E.bm.genesisTimestamp → E.timestampToEvmBlockNum ts = 0

/-- The LIB entry for the received block, among it and the cached blocks up to its
    parent, is dated after genesis. -/
def LibAfterGenesis (E : Env Tx) (s : State Tx) (b : NativeBlock) : Prop :=
  ∀ it ∈ libEntry
      (b :: s.nativeBlocks.dropWhile (fun nb => nb.id ≠ b.prev)) b.lib,
    E.bm.genesisTimestamp * 1000000 ≤ it.timestamp

/-- What a step of a sequence must meet.  The native chain promises positive
    timestamps that do not decrease along the links; before genesis the parent may
    be the restored block, which is dated after genesis.  A block before genesis is
    caught by the filter while the EVM chain ends at its genesis block, or is
    delivered again; for a block after genesis no block before genesis is the LIB
    entry. -/
structure GenesisOrderly (E : Env Tx) (s : State Tx) (b : NativeBlock) : Prop where
  positive : 0 < b.timestamp
  increasing : ¬ BeforeGenesis E b → ∀ nb ∈ s.nativeBlocks, nb.id = b.prev →
    nb.timestamp ≤ b.timestamp
  before : BeforeGenesis E b →
    (b.timestamp ≤ E.bm.genesisTimestamp ∧
      ∀ e ∈ s.evmBlocks.head?, e.header.number = 0) ∨
    (s.nativeBlocks = [b] ∧ b.id ≠ b.prev)
  after : ¬ BeforeGenesis E b → LibAfterGenesis E s b

instance (E : Env Tx) (s : State Tx) (b : NativeBlock) :
    Decidable (LibAfterGenesis E s b) :=
  inferInstanceAs (Decidable (∀ it ∈ libEntry
      (b :: s.nativeBlocks.dropWhile (fun nb => nb.id ≠ b.prev)) b.lib,
    E.bm.genesisTimestamp * 1000000 ≤ it.timestamp))

instance (E : Env Tx) (s : State Tx) (b : NativeBlock) :
    Decidable (GenesisOrderly E s b) :=
  decidable_of_iff (0 < b.timestamp ∧
      (¬ BeforeGenesis E b → ∀ nb ∈ s.nativeBlocks, nb.id = b.prev →
        nb.timestamp ≤ b.timestamp) ∧
      (BeforeGenesis E b → (b.timestamp ≤ E.bm.genesisTimestamp ∧
        ∀ e ∈ s.evmBlocks.head?, e.header.number = 0) ∨
        (s.nativeBlocks = [b] ∧ b.id ≠ b.prev)) ∧
      (¬ BeforeGenesis E b → LibAfterGenesis E s b))
    ⟨fun ⟨h₁, h₂, h₃, h₄⟩ => ⟨h₁, h₂, h₃, h₄⟩,
      fun ⟨h₁, h₂, h₃, h₄⟩ => ⟨h₁, h₂, h₃, h₄⟩⟩

/-- Where the blocks above the fork point lie in other EVM blocks, the native loop
    takes nothing out of the last one. -/
theorem removeForkedNativeBlocks_other_ne_undefined {E : Env Tx}
    {f : NativeBlock} {e : Block Tx} {es : List (Block Tx)} :
    ∀ {natives : List NativeBlock},
      (∀ nb ∈ natives, nb.id ≠ f.id → E.evmNum nb ≠ E.evmNum f) →
      removeForkedNativeBlocks E f natives (e :: es) ≠ .error .undefined := by
  intro natives
  induction natives with
  | nil => rintro _ ⟨⟩
  | cons nb older ih =>
      intro h
      rw [removeForkedNativeBlocks]
      by_cases hid : nb.id ≠ f.id
      · rw [if_pos hid, if_neg (fun hrem => h nb List.mem_cons_self hid hrem.2)]
        exact ih (fun x hx => h x (List.mem_cons_of_mem _ hx))
      · rw [if_neg hid]
        rintro ⟨⟩

/-- The invariant of such a sequence: the EVM blocks hold the contents of the
    `recent` native blocks; below these there may be one block `kept` from before
    genesis, as long as the EVM chain has been built from its genesis block. -/
structure Grounded (E : Env Tx) (startBlock : Block Tx)
    (recent : List NativeBlock) (kept : Option NativeBlock) (s : State Tx) :
    Prop where
  started : Started E startBlock
  natives : s.nativeBlocks = recent ++ kept.toList
  natives_ne : s.nativeBlocks ≠ []
  evms_ne : s.evmBlocks ≠ []
  before : ∀ c ∈ kept, E.evmNum c = 0 ∧
    c.timestamp < E.bm.genesisTimestamp * 1000000
  start : ∀ c ∈ kept, startBlock.header.number = 0
  filled : Filled E startBlock recent s.evmBlocks
  head_le : ∀ e ∈ s.evmBlocks.head?, ∀ nb ∈ s.nativeBlocks.head?,
    e.header.number ≤ E.evmNum nb
  front_reached : FrontReached E s.nativeBlocks s.evmBlocks

/-- With a block of another number `kept` contributes nothing. -/
theorem contents_kept {E : Env Tx} {k : Nat} {recent : List NativeBlock}
    {kept : Option NativeBlock} (h : ∀ c ∈ kept, E.evmNum c ≠ k) :
    contents E k (recent ++ kept.toList) = contents E k recent := by
  rw [contents_append, contents_eq_nil, List.nil_append]
  intro nb hnb heq
  exact absurd heq (h nb (Option.mem_toList.mp hnb))

/-- Without native blocks nothing is asked of the EVM blocks but that they are
    numbered down to genesis. -/
theorem filled_nil {E : Env Tx} {startBlock : Block Tx} {evms : List (Block Tx)}
    (hcons : Consecutive evms) (h : ∀ e ∈ evms.head?, e.header.number = 0) :
    Filled E startBlock [] evms := by
  have hzero : ∀ e ∈ evms, e.header.number = 0 := by
    intro e he
    cases evms with
    | nil => cases he
    | cons x xs =>
        have hx := h x rfl
        rcases List.mem_cons.mp he with rfl | hmem
        · exact hx
        · have := hcons.tail_lt e hmem
          omega
  refine ⟨List.Pairwise.nil, ?_, hcons, ?_, ?_, ?_⟩
  · intro nb hnb
    cases hnb
  · intro e _ nb hnb
    cases hnb
  · intro e he hlt
    have := hzero e he
    omega
  · intro e he hlt
    have := hzero e he
    omega

section Grounded

variable {E : Env Tx} {startBlock : Block Tx} {recent : List NativeBlock}
  {kept : Option NativeBlock} {s t : State Tx}

/-- A cached native block is one of the recent ones or the one from before
    genesis. -/
theorem Grounded.mem (h : Grounded E startBlock recent kept s) {nb : NativeBlock}
    (hnb : nb ∈ s.nativeBlocks) : nb ∈ recent ∨ nb ∈ kept := by
  rw [h.natives] at hnb
  rcases List.mem_append.mp hnb with hmem | hmem
  · exact Or.inl hmem
  · exact Or.inr (Option.mem_toList.mp hmem)

theorem Grounded.recent_pos (h : Grounded E startBlock recent kept s)
    {nb : NativeBlock} (hnb : nb ∈ recent) : 0 < E.evmNum nb := by
  have := lt_evmNum h.started (h.filled.dated nb hnb)
  omega

/-- The two kinds of native blocks are told apart by their EVM block. -/
theorem Grounded.kept_ne (h : Grounded E startBlock recent kept s) {k : Nat}
    (hk : 0 < k) : ∀ c ∈ kept, E.evmNum c ≠ k := by
  intro c hc
  have := (h.before c hc).1
  omega

theorem dropWhile_toList {α : Type} {p : α → Bool} {kept : Option α} {x : α}
    {xs : List α} (h : kept.toList.dropWhile p = x :: xs) : x ∈ kept ∧ xs = [] := by
  cases kept with
  | none => cases h
  | some y =>
      rw [Option.toList_some, List.dropWhile_cons] at h
      split at h
      · cases h
      · obtain ⟨rfl, rfl⟩ := List.cons.inj h
        exact ⟨rfl, rfl⟩

/-- A rollback keeps what is below the fork point, down to the block from before
    genesis. -/
theorem Grounded.rollback (h : Grounded E startBlock recent kept s)
    {f : NativeBlock} (hf : f ∈ s.nativeBlocks)
    (hroll : BlockConversion.rollback E s f = .ok t) :
    t.nativeBlocks = s.nativeBlocks.dropWhile (fun nb => nb.id ≠ f.id) ∧
      ∃ recent', Grounded E startBlock recent' kept t := by
  obtain ⟨back, older, e, es, txs, hr⟩ := rollback_ok hroll
  have hle := removeForkedEvmBlocks_head_le hr.evms
  have hsuf := removeForkedEvmBlocks_suffix hr.evms
  have hnat : t.nativeBlocks = back :: older := by rw [hr.result]
  have hevm : t.evmBlocks
      = setUpperBound { e with transactions := txs } back :: es := by rw [hr.result]
  have hhead : ∀ x ∈ t.evmBlocks.head?, ∀ nb ∈ t.nativeBlocks.head?,
      x.header.number ≤ E.evmNum nb := by
    intro x hx nb hnb
    rw [hevm] at hx
    rw [hnat] at hnb
    obtain rfl := Option.some.inj hx
    obtain rfl := Option.some.inj hnb
    exact Nat.le_of_eq hr.number.symm
  have hfront := hr.frontReached h.front_reached
  refine ⟨hnat.trans hr.natives.symm, ?_⟩
  have hdrop := hr.natives
  rw [h.natives, List.dropWhile_append] at hdrop
  cases hrecent : recent.dropWhile (fun nb => nb.id ≠ f.id) with
  | nil =>
      -- only the block from before genesis is left
      rw [hrecent] at hdrop
      have hdrop : kept.toList.dropWhile (fun nb => nb.id ≠ f.id)
          = back :: older := hdrop
      obtain ⟨hback, holder⟩ := dropWhile_toList hdrop
      have hzero := (h.before back hback).1
      refine ⟨[], h.started, ?_, by rw [hnat]; exact List.cons_ne_nil _ _,
        by rw [hevm]; exact List.cons_ne_nil _ _, h.before, h.start, ?_, hhead, hfront⟩
      · rw [hnat, holder, hback]
        rfl
      · have hcons : Consecutive (e :: es) :=
          List.IsChain.suffix h.filled.consecutive hsuf
        rw [hevm]
        refine filled_nil (hcons.replace_head rfl) ?_
        intro x hx
        obtain rfl := Option.some.inj hx
        exact hr.number.symm.trans hzero
  | cons r rs =>
      rw [hrecent] at hdrop
      have hdrop : r :: (rs ++ kept.toList) = back :: older := hdrop
      obtain ⟨rfl, rfl⟩ := List.cons.inj hdrop
      have hr_mem : r ∈ recent := (List.dropWhile_suffix _).subset
        (hrecent ▸ List.mem_cons_self)
      have hrpos := h.recent_pos hr_mem
      -- so the fork point is not the block from before genesis either
      have hfmem : f ∈ recent := by
        rcases h.mem hf with hmem | hmem
        · exact hmem
        · have := (h.before f hmem).1
          have := hr.number
          omega
      have hfpos := h.recent_pos hfmem
      refine ⟨r :: rs, h.started, by rw [hnat]; rfl,
        by rw [hnat]; exact List.cons_ne_nil _ _,
        by rw [hevm]; exact List.cons_ne_nil _ _, h.before, h.start, ?_, hhead, hfront⟩
      rw [hevm]
      refine h.filled.rollback h.started hfmem hrecent hr.evms hr.number ?_
      intro heq hcontents
      have hkept := h.kept_ne (show 0 < e.header.number by omega)
      have hcut := hr.cut heq (by rw [h.natives, contents_kept hkept]; exact hcontents)
      rw [← List.cons_append, contents_kept hkept] at hcut
      exact hcut

theorem Grounded.link (h : Grounded E startBlock recent kept s)
    {b : NativeBlock} (hlink : LinkedTo E s b t) :
    t.nativeBlocks = s.nativeBlocks.dropWhile (fun nb => nb.id ≠ b.prev) ∧
      ∃ recent', Grounded E startBlock recent' kept t := by
  rcases hlink with ⟨rfl, hback⟩ | ⟨f, hfork, hroll⟩
  · refine ⟨?_, recent, h⟩
    obtain ⟨back, older, hnat⟩ := List.exists_cons_of_ne_nil h.natives_ne
    have hid : back.id = b.prev := hback back (by rw [hnat]; rfl)
    rw [hnat, List.dropWhile_cons, if_neg (by simpa using hid)]
  · obtain ⟨hf, hid⟩ := findForkBlock_some hfork
    rw [← hid]
    exact h.rollback hf hroll

/-- The received block is dated no earlier than the recent blocks, and the EVM
    chain has not passed it. -/
theorem Grounded.dated (h : Grounded E startBlock recent kept t)
    {b : NativeBlock} (hb : ¬ BeforeGenesis E b)
    (hdate : ∀ back ∈ t.nativeBlocks.head?, back.timestamp ≤ b.timestamp) :
    (∀ nb ∈ recent, nb.timestamp ≤ b.timestamp) ∧
      (restoredNativeBlock startBlock).timestamp ≤ b.timestamp ∧
      ∀ e ∈ t.evmBlocks.head?, e.header.number ≤ E.evmNum b := by
  have hE := h.started
  have hnat := h.natives
  have hfilled := h.filled
  cases recent with
  | nil =>
      cases kept with
      | none => exact absurd hnat h.natives_ne
      | some c =>
          -- the start block is the genesis block here
          have hgenesis : (restoredNativeBlock startBlock).timestamp
              = E.bm.genesisTimestamp * 1000000 := by
            show startBlock.header.timestamp * 1000000 = _
            rw [hE.timestamp, h.start c rfl, Nat.add_zero]
          refine ⟨fun nb hnb => (by cases hnb), ?_, ?_⟩
          · rw [hgenesis]
            exact Nat.le_of_lt (Nat.lt_of_not_le hb)
          · intro e he
            have hle := h.head_le e he c (by rw [hnat]; rfl)
            rw [(h.before c rfl).1] at hle
            omega
  | cons r rs =>
      have hr : r.timestamp ≤ b.timestamp := hdate r (by rw [hnat]; rfl)
      have hrestored := hfilled.dated r List.mem_cons_self
      refine ⟨?_, Nat.le_trans hrestored hr, ?_⟩
      · intro nb hnb
        rcases List.mem_cons.mp hnb with rfl | hmem
        · exact hr
        · exact Nat.le_trans
            ((List.pairwise_cons.mp hfilled.sorted).1 nb hmem) hr
      · intro e he
        exact Nat.le_trans (h.head_le e he r (by rw [hnat]; rfl))
          (evmNum_mono hE hrestored hr)

/-- Cutting the oldest native blocks off cuts the block from before genesis off
    first. -/
theorem exists_recent_of_append {natives old : List NativeBlock}
    (h : recent ++ kept.toList = natives ++ old) :
    ∃ recent' oldRecent kept', recent = recent' ++ oldRecent ∧
      natives = recent' ++ Option.toList kept' ∧ (∀ c ∈ kept', c ∈ kept) ∧
      ∀ nb ∈ oldRecent, nb ∈ old := by
  rcases List.append_eq_append_iff.mp h with ⟨as, hnat, hkept⟩ | ⟨as, hrec, hold⟩
  · cases as with
    | nil =>
        refine ⟨recent, [], none, (List.append_nil _).symm, hnat, ?_, ?_⟩
        · intro c hc
          cases hc
        · intro nb hnb
          cases hnb
    | cons a as =>
        cases kept with
        | none => cases hkept
        | some c =>
            obtain ⟨rfl, hnil⟩ := List.cons.inj hkept
            obtain ⟨rfl, -⟩ := List.append_eq_nil_iff.mp hnil.symm
            refine ⟨recent, [], some c, (List.append_nil _).symm, hnat,
              fun x hx => hx, ?_⟩
            intro nb hnb
            cases hnb
  · refine ⟨natives, as, none, hrec, (List.append_nil _).symm, ?_, ?_⟩
    · intro c hc
      cases hc
    · intro nb hnb
      rw [hold]
      exact List.mem_append_left _ hnb

/-- Recent native blocks lie above the one from before genesis. -/
theorem evmNum_sorted_kept {natives : List NativeBlock}
    (hsorted : natives.Pairwise (fun x y => E.evmNum y ≤ E.evmNum x))
    (hzero : ∀ c ∈ kept, E.evmNum c = 0) :
    (natives ++ kept.toList).Pairwise (fun x y => E.evmNum y ≤ E.evmNum x) := by
  refine List.pairwise_append.mpr ⟨hsorted, ?_, ?_⟩
  · cases kept with
    | none => exact List.Pairwise.nil
    | some c => exact List.pairwise_singleton _ _
  · intro x _ c hc
    rw [hzero c (Option.mem_toList.mp hc)]
    exact Nat.zero_le _

theorem Grounded.append (h : Grounded E startBlock recent kept t)
    {b : NativeBlock} (hb : ¬ BeforeGenesis E b)
    (hdate : ∀ back ∈ t.nativeBlocks.head?, back.timestamp ≤ b.timestamp)
    (happ : appendNativeBlock E t b = .ok s) :
    ∃ recent' kept', Grounded E startBlock recent' kept' s := by
  have hE := h.started
  obtain ⟨hlast, hrestored, hle⟩ := h.dated hb hdate
  obtain ⟨u, curr, older, curr', written, ha⟩ := appendNativeBlock_ok happ
  obtain ⟨hnum, hadd⟩ := Filled.added hE
    (v := { t with nativeBlocks := b :: t.nativeBlocks }) h.filled hle hrestored hlast
    ha.extended ha.evms ha.added
  have hunat : u.nativeBlocks = b :: t.nativeBlocks := (extendEvmChain_frame ha.extended).1
  have hsplit : b :: t.nativeBlocks = (b :: recent) ++ kept.toList := by
    rw [h.natives, List.cons_append]
  -- whatever is dropped, the received block and its EVM block stay at the back
  have hdropped : ∃ oldNatives oldEvms evmLib,
      b :: t.nativeBlocks = s.nativeBlocks ++ oldNatives ∧
      curr' :: older = s.evmBlocks ++ oldEvms ∧
      s.nativeBlocks ≠ [] ∧ s.evmBlocks ≠ [] ∧
      (∀ nb ∈ oldNatives, E.evmNum nb < evmLib) ∧
      ∀ e ∈ s.evmBlocks.getLast?, evmLib ≤ e.header.number := by
    rw [← hunat]
    rcases removeIrreversible_ok ha.pruned with
      ⟨-, rfl⟩ | ⟨it, oldNatives, oldEvms, -, hp⟩
    · refine ⟨[], [], 0, (List.append_nil _).symm, (List.append_nil _).symm, ?_,
        List.cons_ne_nil _ _, fun nb hnb => (by cases hnb), fun e _ => Nat.zero_le _⟩
      show u.nativeBlocks ≠ []
      rw [hunat]
      exact List.cons_ne_nil _ _
    · exact ⟨oldNatives, oldEvms, _, hp.natives, hp.evms, hp.natives_ne, hp.evms_ne,
        hp.natives_below, hp.evms_front⟩
  obtain ⟨oldNatives, oldEvms, evmLib, hnat, hevms, hnatne, hevmne, hbelow,
    hfront⟩ := hdropped
  obtain ⟨recent', oldRecent, kept', hrecent, hs, hkept, hold⟩ :=
    exists_recent_of_append (hsplit.symm.trans hnat)
  refine ⟨recent', kept', hE, hs, hnatne, hevmne,
    fun c hc => h.before c (hkept c hc), fun c hc => h.start c (hkept c hc), ?_, ?_, ?_⟩
  · have hprune := hadd
    rw [hrecent, hevms] at hprune
    exact hprune.prune hevmne (fun nb hnb => hbelow nb (hold nb hnb)) hfront
  · intro e he nb hnb
    rw [ha.heads.2] at he
    rw [ha.heads.1] at hnb
    obtain rfl := Option.some.inj he
    obtain rfl := Option.some.inj hnb
    exact Nat.le_of_eq hnum
  · refine FrontReached.prune ?_ hadd.consecutive ?_ ha.pruned
    · show FrontReached E u.nativeBlocks (curr' :: older)
      rw [hunat]
      exact h.front_reached.add (ha.frontNumber_eq hE) hadd.consecutive hnum
    · show u.nativeBlocks.Pairwise _
      rw [hunat, hsplit]
      exact evmNum_sorted_kept (hadd.evmNum_sorted hE) (fun c hc => (h.before c hc).1)

/-- The start block with the number and the date of the genesis block. -/
def atGenesis (E : Env Tx) (startBlock : Block Tx) : Block Tx :=
  { startBlock with header := { startBlock.header with
    number := 0, timestamp := E.bm.genesisTimestamp } }

/-- A block the filter catches is the one from before genesis. -/
theorem Grounded.filtered (hmap : MapsBeforeGenesis E)
    (h : Grounded E startBlock recent kept s) {b : NativeBlock}
    (hpos : 0 < b.timestamp) (hgen : b.timestamp ≤ E.bm.genesisTimestamp)
    (hhead : ∀ e ∈ s.evmBlocks.head?, e.header.number = 0) :
    Grounded E (atGenesis E startBlock) [] (some b)
      { s with nativeBlocks := [b] } := by
  have hbefore : E.evmNum b = 0 ∧
      b.timestamp < E.bm.genesisTimestamp * 1000000 :=
    ⟨hmap _ (by omega), by omega⟩
  refine ⟨⟨h.started.lawful, h.started.mapping, rfl⟩, rfl, List.cons_ne_nil _ _,
    h.evms_ne, ?_, fun _ _ => rfl, filled_nil h.filled.consecutive hhead, ?_, ?_⟩
  · intro c hc
    obtain rfl := Option.some.inj hc
    exact hbefore
  · intro e he nb _
    rw [hhead e he]
    exact Nat.zero_le _
  · -- the EVM blocks are the genesis block alone
    intro k hk nb _
    obtain ⟨e, es, hevm⟩ := List.exists_cons_of_ne_nil h.evms_ne
    have hle := h.filled.consecutive.le_of_frontNumber hk e
      (by rw [hevm]; exact List.mem_cons_self)
    have hzero := hhead e (by rw [hevm]; rfl)
    omega

theorem grounded_init (hE : Started E startBlock) (evmLib₀ : Nat) :
    Grounded E startBlock [restoredNativeBlock startBlock] none
      (initialState startBlock evmLib₀) := by
  have h := coherent_init hE evmLib₀
  exact ⟨hE, rfl, h.natives_ne, h.evms_ne, fun c hc => (by cases hc),
    fun c hc => (by cases hc), h.filled, h.head_le, h.front_reached⟩

/-- The parent is what the link check leaves last. -/
theorem Grounded.increasing {b : NativeBlock}
    (hnat : t.nativeBlocks = s.nativeBlocks.dropWhile (fun nb => nb.id ≠ b.prev))
    (hinc : ∀ nb ∈ s.nativeBlocks, nb.id = b.prev → nb.timestamp ≤ b.timestamp) :
    ∀ back ∈ t.nativeBlocks.head?, back.timestamp ≤ b.timestamp := by
  intro back hback
  obtain ⟨older, holder⟩ := List.head?_eq_some_iff.mp hback
  rw [hnat] at holder
  refine hinc back ?_ (id_of_dropWhile holder)
  exact (List.dropWhile_suffix _).subset (holder ▸ List.mem_cons_self)

/-- **One call keeps the invariant**, with one block or none from before
    genesis. -/
theorem Grounded.step (hmap : MapsBeforeGenesis E)
    (h : Grounded E startBlock recent kept s) {b : NativeBlock}
    (hb : GenesisOrderly E s b) {s' : State Tx}
    (hstep : nativeBlocksHandler E s b = .ok s') :
    ∃ start' recent' kept', Grounded E start' recent' kept' s' := by
  by_cases hgen : BeforeGenesis E b
  · rcases hb.before hgen with ⟨hfilter, hhead⟩ | ⟨hnat, hid⟩
    · rw [handler_of_filtered hfilter] at hstep
      obtain rfl := Except.ok.inj hstep
      exact ⟨_, _, _, h.filtered hmap hb.positive hfilter hhead⟩
    · rcases nativeBlocksHandler_ok hstep with
        ⟨hfilter, -⟩ | ⟨-, rfl⟩ | ⟨t, hlt, hlink, happ⟩
      · -- the filter would replace the only native block by itself
        rw [handler_of_filtered hfilter] at hstep
        obtain rfl := Except.ok.inj hstep
        rw [← hnat]
        exact ⟨_, _, _, h⟩
      · exact ⟨_, _, _, h⟩
      · rw [nativeBlocksHandler, if_neg (by omega), link_of_alone hnat hid] at hstep
        obtain rfl := Except.ok.inj hstep
        exact ⟨_, _, _, h⟩
  · rcases nativeBlocksHandler_ok hstep with
      ⟨hfilter, -⟩ | ⟨-, rfl⟩ | ⟨t, -, hlink, happ⟩
    · exact absurd (show BeforeGenesis E b by rw [BeforeGenesis]; omega) hgen
    · exact ⟨_, _, _, h⟩
    · -- after genesis: the link check, then the block becomes the last one
      obtain ⟨hnat, recent', ht⟩ := h.link hlink
      obtain ⟨recent'', kept', hs'⟩ :=
        ht.append hgen (Grounded.increasing hnat (hb.increasing hgen)) happ
      exact ⟨_, _, _, hs'⟩

theorem grounded_reach (hmap : MapsBeforeGenesis E) (hE : Started E startBlock)
    {evmLib₀ : Nat} {bs : List NativeBlock}
    (hrun : Reach (nativeBlocksHandler E) (GenesisOrderly E)
      (initialState startBlock evmLib₀) bs s) :
    ∃ start' recent' kept', Grounded E start' recent' kept' s := by
  refine hrun.invariant (P := fun s => ∃ start' recent' kept',
    Grounded E start' recent' kept' s) ⟨_, _, _, grounded_init hE evmLib₀⟩ ?_
  rintro s b s' ⟨start', recent', kept', h⟩ hb hstep
  exact h.step hmap hb hstep

/-! ## No empty container -/

theorem Grounded.rollback_ne_undefined (h : Grounded E startBlock recent kept s)
    {f : NativeBlock} (hf : f ∈ s.nativeBlocks) :
    BlockConversion.rollback E s f ≠ .error .undefined := by
  obtain ⟨e, es, hevm⟩ := h.front_reached.popped h.evms_ne hf
  refine BlockConversion.rollback_ne_undefined hf hevm ?_
  have hsuf := removeForkedEvmBlocks_suffix hevm
  rcases h.mem hf with hmem | hmem
  · refine removeForkedNativeBlocks_ne_undefined ?_
    intro hnum
    have hpos := h.recent_pos hmem
    have hlt := lt_evmNum h.started (h.filled.dated f hmem)
    rw [h.natives, contents_kept (h.kept_ne (by omega))]
    exact h.filled.contents e (hsuf.subset List.mem_cons_self) (by omega)
  · -- the blocks above lie in other EVM blocks, so no transaction is removed
    refine removeForkedNativeBlocks_other_ne_undefined ?_
    intro nb hnb hid
    rcases h.mem hnb with hrecent | hkept
    · have := h.recent_pos hrecent
      have := (h.before f hmem).1
      omega
    · rw [Option.mem_unique hkept hmem] at hid
      exact absurd rfl hid

/-- **No call reads an empty container**: neither does the handler in a sequence
    that starts before genesis, as long as no block from before genesis becomes
    the LIB entry. -/
theorem Grounded.handler_ne_undefined (h : Grounded E startBlock recent kept s)
    {b : NativeBlock} (hb : GenesisOrderly E s b) :
    nativeBlocksHandler E s b ≠ .error .undefined := by
  rw [nativeBlocksHandler]
  by_cases hfilter : b.timestamp ≤ E.bm.genesisTimestamp
  · rw [if_pos hfilter]
    rintro ⟨⟩
  · rw [if_neg hfilter]
    by_cases hgen : BeforeGenesis E b
    · rcases hb.before hgen with ⟨hcaught, -⟩ | ⟨hnat, hid⟩
      · exact absurd hcaught hfilter
      · rw [link_of_alone hnat hid]
        rintro ⟨⟩
    · refine bind_ne_error (linkNativeBlock_ne_undefined
        (fun f hf => h.rollback_ne_undefined hf) b) ?_
      intro r hr
      cases r with
      | none => rintro ⟨⟩
      | some t =>
          obtain ⟨hnat, recent', ht⟩ := h.link (LinkedTo.of_link hr)
          obtain ⟨hlast, hrestored, hle⟩ :=
            ht.dated hgen (Grounded.increasing hnat (hb.increasing hgen))
          refine appendNativeBlock_ne_undefined ht.started ht.evms_ne ht.filled
            hle ?_
          intro it hit
          have hafter := hb.after hgen it (by rw [← hnat]; exact hit)
          -- the LIB entry is the block itself, a recent one, or one from before genesis
          rcases List.mem_cons.mp (libEntry_mem hit) with rfl | hmem
          · have := lt_evmNum ht.started hrestored
            exact ⟨by omega, Nat.le_refl _⟩
          · rcases ht.mem hmem with hrecent | hkept
            · exact ⟨ht.recent_pos hrecent, evmNum_mono ht.started
                (ht.filled.dated it hrecent) (hlast it hrecent)⟩
            · have := (ht.before it hkept).2
              omega

end Grounded

/-- **Before genesis**: in every state a block dated at or before genesis is kept
    out of the EVM chain exactly when it is caught; and in every sequence whose
    steps are orderly the handler never reads an empty container. -/
theorem before_genesis_kept_out {X : Externals Tx} {db : ChainData Tx}
    {height : Option Nat} {startBlock : Block Tx} {E : Env Tx} {s₀ : State Tx}
    (hload : Loaded X db height startBlock E s₀) (hmap : MapsBeforeGenesis E) :
    (∀ s b, BeforeGenesis E b → (KeptOut E s b ↔ Caught E s b)) ∧
    ∀ bs s, Reach (nativeBlocksHandler E) (GenesisOrderly E) s₀ bs s →
      ∀ b, GenesisOrderly E s b → nativeBlocksHandler E s b ≠ .error .undefined := by
  obtain ⟨evmLib₀, rfl⟩ := hload.initial
  refine ⟨fun s b _ => keptOut_iff, ?_⟩
  intro bs s hrun b hb
  obtain ⟨start', recent, kept, h⟩ := grounded_reach hmap hload.started hrun
  exact h.handler_ne_undefined hb

theorem plainEnv_mapsBeforeGenesis : MapsBeforeGenesis plainEnv := by
  intro ts hts
  show (if ts / 1000000 < plainEnv.bm.genesisTimestamp then 0
    else 1 + (ts / 1000000 - plainEnv.bm.genesisTimestamp) / 1) = 0
  rw [if_pos hts]

/-- Native block 2, a child of the restored one, five microseconds into 1970: the
    number 5 is below the genesis timestamp of ten seconds. -/
def plainEarly : NativeBlock :=
  { plainNative 2 5 0 0 0 [plainPayload 0 0 [9]] with timestamp := 5 }

/-- A sequence that starts before genesis; the LIB skips native block 2. -/
def plainFromEarly : List NativeBlock :=
  [plainEarly,
   plainNative 3 0 5 21 0 [plainPayload 0 0 [1, 2]],
   plainNative 4 0 0 22 3 [plainPayload 0 0 [3]]]

theorem before_genesis_plainFromEarly :
    KeptOut plainEnv (initialState plainGenesis 0) plainEarly ∧
    ∃ s, Reach (nativeBlocksHandler plainEnv) (GenesisOrderly plainEnv)
        (initialState plainGenesis 0) plainFromEarly s ∧
      ∀ b, GenesisOrderly plainEnv s b →
        nativeBlocksHandler plainEnv s b ≠ .error .undefined := by
  obtain ⟨hkept, hsafe⟩ :=
    before_genesis_kept_out (plainEnv_loaded 0) plainEnv_mapsBeforeGenesis
  have hcheck : checkRun (nativeBlocksHandler plainEnv) (GenesisOrderly plainEnv)
      (initialState plainGenesis 0) plainFromEarly = true := by decide +kernel
  obtain ⟨s, hs⟩ := exists_reach hcheck
  exact ⟨(hkept _ plainEarly (by decide)).mpr (by decide), s, hs,
    hsafe plainFromEarly s hs⟩

/-- A genesis block ten seconds into the year 2000, where native slots start. -/
def slotGenesis : Block Bytes :=
  { plainGenesis with
    header := { plainGenesis.header with timestamp := 946684810 } }

def slotEnv : Env Bytes :=
  loadedEnv plainExternals (storedData [slotGenesis]) slotGenesis.header

/-- Native block 2 in the last slot before genesis. -/
def slotEarly (lib : Nat) : NativeBlock :=
  { plainNative 2 0 0 0 lib [] with timestamp := timePointOfSlot 19 }

/-- **Before genesis and not kept out**: the last native block before genesis is
    appended like any other, and when it is irreversible the LIB computation wraps
    and empties the native blocks.  The same happens when a block that was caught
    becomes the LIB entry. -/
theorem not_keptOut_slotEarly :
    Loaded plainExternals (storedData [slotGenesis]) none slotGenesis slotEnv
      (initialState slotGenesis 0) ∧
    BeforeGenesis slotEnv (slotEarly 0) ∧
    ¬ KeptOut slotEnv (initialState slotGenesis 0) (slotEarly 0) ∧
    BeforeGenesis slotEnv (slotEarly 2) ∧
    nativeBlocksHandler slotEnv (initialState slotGenesis 0) (slotEarly 2)
      = .error .undefined ∧
    feed (nativeBlocksHandler plainEnv) (initialState plainGenesis 0)
      [plainEarly, plainNative 3 0 5 21 2 []] = .error .undefined := by
  have hloaded : Loaded plainExternals (storedData [slotGenesis]) none slotGenesis
      slotEnv (initialState slotGenesis 0) := by
    refine loaded_of_storedData plainExternals_lawful ?_ rfl rfl
      ⟨by decide, by decide⟩ 0
    intro b hb
    rw [List.mem_singleton.mp hb]
    rfl
  have hcaught : ¬ Caught slotEnv (initialState slotGenesis 0) (slotEarly 0) := by
    decide +kernel
  exact ⟨hloaded, by decide +kernel, fun hkept => hcaught (keptOut_iff.mp hkept),
    by decide +kernel, by decide +kernel, by decide +kernel⟩

end BlockConversion
