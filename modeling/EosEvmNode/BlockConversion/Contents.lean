import EosEvmNode.BlockConversion.Front

/-! # Exact contents — EVM blocks against native blocks

    The two lists of the plugin are extended, popped from both ends and rewound
    at different granularities: native blocks by id, EVM blocks by number.
    `Filled` ties them together: every EVM block above the start block holds the
    transactions of the cached native blocks of its second, in order.

    The native chain promises increasing timestamps along its links (`Dated`);
    nothing is asked of the ids, and forks may be of any depth. -/

namespace BlockConversion

open Channels Silkworm Engine Runs

variable {Tx : Type}

/-- What the native chain promises about a delivered block: it is dated after
    genesis, and no earlier than its parent. -/
structure Dated (E : Env Tx) (s : State Tx) (b : NativeBlock) : Prop where
  after_genesis : E.bm.genesisTimestamp * 1000000 ≤ b.timestamp
  positive : 0 < b.timestamp
  increasing : ∀ nb ∈ s.nativeBlocks, nb.id = b.prev →
    nb.timestamp ≤ b.timestamp

instance (E : Env Tx) (s : State Tx) (b : NativeBlock) :
    Decidable (Dated E s b) :=
  decidable_of_iff (E.bm.genesisTimestamp * 1000000 ≤ b.timestamp ∧
      0 < b.timestamp ∧ ∀ nb ∈ s.nativeBlocks, nb.id = b.prev →
        nb.timestamp ≤ b.timestamp)
    ⟨fun ⟨h₁, h₂, h₃⟩ => ⟨h₁, h₂, h₃⟩, fun ⟨h₁, h₂, h₃⟩ => ⟨h₁, h₂, h₃⟩⟩

/-- A block dated after genesis does not clear the cache. -/
theorem Dated.not_before {E : Env Tx} {s : State Tx} {b : NativeBlock}
    (h : Dated E s b) : ¬ b.timestamp ≤ E.bm.genesisTimestamp := by
  have := h.after_genesis
  have := h.positive
  omega

/-- The EVM blocks hold the contents of the native blocks; both newest first. -/
structure Filled (E : Env Tx) (startBlock : Block Tx)
    (natives : List NativeBlock) (evms : List (Block Tx)) : Prop where
  sorted : natives.Pairwise (fun x y => y.timestamp ≤ x.timestamp)
  dated : ∀ nb ∈ natives,
    (restoredNativeBlock startBlock).timestamp ≤ nb.timestamp
  consecutive : Consecutive evms
  /-- Native blocks past the last EVM block carry nothing. -/
  reached : ∀ e ∈ evms.head?, ∀ nb ∈ natives,
    E.evmNum nb ≤ e.header.number ∨ nb.actions = []
  contents : ∀ e ∈ evms, startBlock.header.number < e.header.number →
    e.transactions.map some = contents E e.header.number natives
  /-- Every action agrees with the parameters of the block it went into. -/
  uniform : ∀ e ∈ evms, startBlock.header.number < e.header.number →
    ∀ nb ∈ natives, E.evmNum nb = e.header.number → ∀ act ∈ nb.actions,
      UniformAction E (Params.of e) act

/-- The invariant of the plugin's two lists. -/
structure Coherent (E : Env Tx) (startBlock : Block Tx) (s : State Tx) :
    Prop where
  natives_ne : s.nativeBlocks ≠ []
  evms_ne : s.evmBlocks ≠ []
  filled : Filled E startBlock s.nativeBlocks s.evmBlocks
  /-- The last EVM block is not past the last native block. -/
  head_le : ∀ e ∈ s.evmBlocks.head?, ∀ nb ∈ s.nativeBlocks.head?,
    e.header.number ≤ E.evmNum nb
  front_reached : FrontReached E s.nativeBlocks s.evmBlocks

section Filled

variable {E : Env Tx} {startBlock : Block Tx} {natives : List NativeBlock}
  {evms : List (Block Tx)}

/-- Newer native blocks lie in the same or a later EVM block. -/
theorem Filled.evmNum_sorted (hE : Started E startBlock)
    (h : Filled E startBlock natives evms) :
    natives.Pairwise (fun x y => E.evmNum y ≤ E.evmNum x) := by
  refine List.Pairwise.imp_of_mem ?_ h.sorted
  intro x y _ hy hle
  exact evmNum_mono hE (h.dated y hy) hle

/-- The head of the native blocks is the latest of them. -/
theorem Filled.evmNum_le_head (hE : Started E startBlock) {back : NativeBlock}
    {older : List NativeBlock} (h : Filled E startBlock (back :: older) evms) :
    ∀ nb ∈ back :: older, E.evmNum nb ≤ E.evmNum back := by
  intro nb hnb
  rcases List.mem_cons.mp hnb with rfl | hmem
  · exact Nat.le_refl _
  · exact (List.pairwise_cons.mp (h.evmNum_sorted hE)).1 nb hmem

/-! ## The fork -/

/-- What is left after the forked blocks are popped from the back. -/
theorem Filled.rollback (hE : Started E startBlock)
    (h : Filled E startBlock natives evms) {f back : NativeBlock}
    {older : List NativeBlock} {e : Block Tx} {es : List (Block Tx)}
    {txs : List Tx} (hf : f ∈ natives)
    (hnat : natives.dropWhile (fun nb => nb.id ≠ f.id) = back :: older)
    (hevm : removeForkedEvmBlocks E f evms = e :: es)
    (hnum : E.evmNum back = e.header.number)
    (hcut : e.header.number = E.evmNum f →
      e.transactions.map some = BlockConversion.contents E e.header.number natives →
      txs.map some = BlockConversion.contents E e.header.number (back :: older)) :
    Filled E startBlock (back :: older)
      (setUpperBound { e with transactions := txs } back :: es) := by
  -- the popped native blocks, and the fork point among the kept ones
  have hsplit : natives = natives.takeWhile (fun nb => nb.id ≠ f.id)
      ++ (back :: older) := by
    rw [← hnat, List.takeWhile_append_dropWhile]
  have hfkept : f ∈ back :: older := by
    rw [hsplit] at hf
    rcases List.mem_append.mp hf with hmem | hmem
    · have hne := List.mem_takeWhile_imp hmem
      simp at hne
    · exact hmem
  have hsorted := h.evmNum_sorted hE
  rw [hsplit, List.pairwise_append] at hsorted
  obtain ⟨-, hkept, hpopped⟩ := hsorted
  have hback : ∀ nb ∈ back :: older, E.evmNum nb ≤ E.evmNum back := by
    intro nb hnb
    rcases List.mem_cons.mp hnb with rfl | hmem
    · exact Nat.le_refl _
    · exact (List.pairwise_cons.mp hkept).1 nb hmem
  -- the last EVM block left is the one of the fork point
  have heq : e.header.number = E.evmNum f := by
    have hle := removeForkedEvmBlocks_head_le hevm
    have := hback f hfkept
    omega
  have hsuf := removeForkedEvmBlocks_suffix hevm
  have hcons : Consecutive (e :: es) := List.IsChain.suffix h.consecutive hsuf
  have hkeptmem : ∀ nb ∈ back :: older, nb ∈ natives := by
    intro nb hnb
    rw [hsplit]
    exact List.mem_append_right _ hnb
  refine ⟨?_, ?_, hcons.replace_head rfl, ?_, ?_, ?_⟩
  · have hs := h.sorted
    rw [hsplit, List.pairwise_append] at hs
    exact hs.2.1
  · intro nb hnb
    exact h.dated nb (hkeptmem nb hnb)
  · intro x hx nb hnb
    obtain rfl := Option.some.inj hx
    refine Or.inl ?_
    rw [setUpperBound_number, ← hnum]
    exact hback nb hnb
  · intro x hx hlt
    rcases List.mem_cons.mp hx with rfl | hmem
    · rw [setUpperBound_number, setUpperBound_transactions] at *
      exact hcut heq (h.contents e (hsuf.subset List.mem_cons_self) hlt)
    · -- the popped native blocks lie above the EVM blocks before this one
      rw [h.contents x (hsuf.subset (List.mem_cons_of_mem _ hmem)) hlt]
      conv_lhs => rw [hsplit]
      rw [contents_append]
      have hnil : BlockConversion.contents E x.header.number
          (natives.takeWhile (fun nb => nb.id ≠ f.id)) = [] := by
        refine contents_eq_nil ?_
        intro nb hnb heqx
        have h₁ := hpopped nb hnb back List.mem_cons_self
        have h₂ := hcons.tail_lt x hmem
        omega
      rw [hnil, List.append_nil]
  · intro x hx hlt nb hnb heqx act hact
    rcases List.mem_cons.mp hx with rfl | hmem
    · exact h.uniform e (hsuf.subset List.mem_cons_self) hlt nb
        (hkeptmem nb hnb) heqx act hact
    · exact h.uniform x (hsuf.subset (List.mem_cons_of_mem _ hmem)) hlt nb
        (hkeptmem nb hnb) heqx act hact

/-! ## Extending, adding and dropping -/

/-- A new EVM block past every native block with actions is empty. -/
theorem Filled.extend (hE : Started E startBlock) {last : Block Tx}
    {older : List (Block Tx)} (h : Filled E startBlock natives (last :: older)) :
    Filled E startBlock natives
      (generateNewEvmBlock E (setTransactionsRoot E last)
        :: setTransactionsRoot E last :: older) := by
  have hnew : (generateNewEvmBlock E (setTransactionsRoot E last)).header.number
      = last.header.number + 1 := generateNewEvmBlock_number hE _
  refine ⟨h.sorted, h.dated, ?_, ?_, ?_, ?_⟩
  · exact List.isChain_cons_cons.mpr ⟨hnew, h.consecutive.replace_head rfl⟩
  · intro x hx nb hnb
    obtain rfl := Option.some.inj hx
    rw [hnew]
    rcases h.reached last rfl nb hnb with hle | hnil
    · exact Or.inl (by omega)
    · exact Or.inr hnil
  · intro x hx hlt
    rcases List.mem_cons.mp hx with rfl | hx
    · -- no native block with actions has reached the new EVM block
      rw [generateNewEvmBlock_transactions, List.map_nil, hnew]
      refine (contents_eq_nil ?_).symm
      intro nb hnb heq
      rcases h.reached last rfl nb hnb with hle | hnil
      · omega
      · exact hnil
    · rcases List.mem_cons.mp hx with rfl | hmem
      · exact h.contents last List.mem_cons_self hlt
      · exact h.contents x (List.mem_cons_of_mem _ hmem) hlt
  · intro x hx hlt nb hnb heq act hact
    rcases List.mem_cons.mp hx with rfl | hx
    · rw [hnew] at heq
      rcases h.reached last rfl nb hnb with hle | hnil
      · omega
      · rw [hnil] at hact
        cases hact
    · rcases List.mem_cons.mp hx with rfl | hmem
      · exact h.uniform last List.mem_cons_self hlt nb hnb heq act hact
      · exact h.uniform x (List.mem_cons_of_mem _ hmem) hlt nb hnb heq act hact

/-- The received block's transactions go into the EVM block of its number. -/
theorem Filled.add (hE : Started E startBlock) {curr curr' : Block Tx}
    {older : List (Block Tx)} {b : NativeBlock}
    {written : List (Bytes32 × ConsensusParameters)}
    (h : Filled E startBlock natives (curr :: older))
    (hnum : curr.header.number = E.evmNum b)
    (hdated : (restoredNativeBlock startBlock).timestamp ≤ b.timestamp)
    (hlast : ∀ nb ∈ natives, nb.timestamp ≤ b.timestamp)
    (hadd : addNativeBlock E curr b = .ok (curr', written)) :
    Filled E startBlock (b :: natives) (curr' :: older) := by
  obtain ⟨txs, hall, hcurr', -⟩ := addNativeBlock_ok hE.lawful hadd
  subst hcurr'
  refine ⟨List.pairwise_cons.mpr ⟨hlast, h.sorted⟩, ?_,
    h.consecutive.replace_head rfl, ?_, ?_, ?_⟩
  · intro nb hnb
    rcases List.mem_cons.mp hnb with rfl | hmem
    · exact hdated
    · exact h.dated nb hmem
  · intro x hx nb hnb
    obtain rfl := Option.some.inj hx
    refine Or.inl ?_
    show E.evmNum nb ≤ curr.header.number
    rw [hnum]
    rcases List.mem_cons.mp hnb with rfl | hmem
    · exact Nat.le_refl _
    · exact evmNum_mono hE (h.dated nb hmem) (hlast nb hmem)
  · intro x hx hlt
    rcases List.mem_cons.mp hx with rfl | hmem
    · show (curr.transactions ++ txs).map some
        = BlockConversion.contents E curr.header.number (b :: natives)
      -- the new transactions are those of the received block
      rw [contents_cons_of_eq natives hnum.symm, List.map_append, hall.decoded,
        h.contents curr List.mem_cons_self hlt]
    · have hne : E.evmNum b ≠ x.header.number := by
        have := h.consecutive.tail_lt x hmem
        omega
      rw [contents_cons_of_ne natives hne]
      exact h.contents x (List.mem_cons_of_mem _ hmem) hlt
  · intro x hx hlt nb hnb heq act hact
    rcases List.mem_cons.mp hx with rfl | hmem
    · rcases List.mem_cons.mp hnb with rfl | hnb
      · exact hall.uniform act hact
      · -- the block holds this action's transaction already
        have hheld : decodedTx E act
            ∈ BlockConversion.contents E curr.header.number natives :=
          mem_contents hnb heq hact
        rw [← h.contents curr List.mem_cons_self hlt] at hheld
        have hne : curr.transactions ≠ [] := by
          intro hnil
          rw [hnil] at hheld
          cases hheld
        exact hall.keeps hne act
          (h.uniform curr List.mem_cons_self hlt nb hnb heq act hact)
    · rcases List.mem_cons.mp hnb with rfl | hnb
      · have hlt' := h.consecutive.tail_lt x hmem
        omega
      · exact h.uniform x (List.mem_cons_of_mem _ hmem) hlt nb hnb heq act hact

/-- Native blocks below the EVM LIB hold nothing of the EVM blocks kept. -/
theorem Filled.prune {evmLib : Nat} {oldNatives : List NativeBlock}
    {oldEvms : List (Block Tx)}
    (h : Filled E startBlock (natives ++ oldNatives) (evms ++ oldEvms))
    (hne : evms ≠ []) (hnat : ∀ nb ∈ oldNatives, E.evmNum nb < evmLib)
    (hfront : ∀ e ∈ evms.getLast?, evmLib ≤ e.header.number) :
    Filled E startBlock natives evms := by
  have hcons : Consecutive evms := List.IsChain.left_of_append h.consecutive
  have hge : ∀ e ∈ evms, evmLib ≤ e.header.number := by
    intro e he
    have hlast := List.getLast?_eq_getLast_of_ne_nil hne
    exact Nat.le_trans (hfront _ hlast) (hcons.front_le _ hlast e he)
  refine ⟨(List.pairwise_append.mp h.sorted).1, ?_, hcons, ?_, ?_, ?_⟩
  · intro nb hnb
    exact h.dated nb (List.mem_append_left _ hnb)
  · intro x hx nb hnb
    refine h.reached x ?_ nb (List.mem_append_left _ hnb)
    rw [List.head?_append_of_ne_nil evms hne]
    exact hx
  · intro x hx hlt
    rw [h.contents x (List.mem_append_left _ hx) hlt, contents_append]
    -- what is dropped lies below every EVM block that is kept
    have hnil : BlockConversion.contents E x.header.number oldNatives = [] := by
      refine contents_eq_nil ?_
      intro nb hnb heq
      have h₁ := hnat nb hnb
      have h₂ := hge x hx
      omega
    rw [hnil, List.nil_append]
  · intro x hx hlt nb hnb
    exact h.uniform x (List.mem_append_left _ hx) hlt nb
      (List.mem_append_left _ hnb)

end Filled

/-! ## The invariant over a call -/

section Step

variable {E : Env Tx} {startBlock : Block Tx}

/-- The invariant holds when `load_head` returns. -/
theorem coherent_init (hE : Started E startBlock) (evmLib₀ : Nat) :
    Coherent E startBlock (initialState startBlock evmLib₀) where
  natives_ne := List.cons_ne_nil _ _
  evms_ne := List.cons_ne_nil _ _
  filled := by
    refine ⟨List.pairwise_singleton _ _, ?_, List.isChain_singleton _, ?_, ?_, ?_⟩
    · intro nb hnb
      rw [List.mem_singleton.mp hnb]
    · intro e he nb hnb
      rw [List.mem_singleton.mp hnb]
      exact Or.inr rfl
    · intro e he hlt
      rw [List.mem_singleton.mp he] at hlt
      omega
    · intro e he hlt
      rw [List.mem_singleton.mp he] at hlt
      omega
  head_le := by
    intro e he nb hnb
    obtain rfl := Option.some.inj he
    obtain rfl := Option.some.inj hnb
    rw [evmNum_restored hE]
    omega
  front_reached := by
    intro k hk nb hnb
    obtain rfl := Option.some.inj hk
    rw [List.mem_singleton.mp hnb, evmNum_restored hE]
    exact Nat.le_succ _

/-- A fork leaves a coherent state that ends at the parent of the received
    block. -/
theorem Coherent.rollback (hE : Started E startBlock) {s t : State Tx}
    {f : NativeBlock} (h : Coherent E startBlock s) (hf : f ∈ s.nativeBlocks)
    (hroll : BlockConversion.rollback E s f = .ok t) :
    Coherent E startBlock t ∧ t.nativeBlocks <:+ s.nativeBlocks ∧
      (∀ back ∈ t.nativeBlocks.head?, back.id = f.id) := by
  obtain ⟨back, older, e, es, txs, hr⟩ := rollback_ok hroll
  have hfilled := h.filled.rollback hE hf hr.natives hr.evms hr.number hr.cut
  have hfront := hr.frontReached h.front_reached
  rw [hr.result] at hfront ⊢
  refine ⟨⟨List.cons_ne_nil _ _, List.cons_ne_nil _ _, hfilled, ?_, hfront⟩, ?_, ?_⟩
  · intro x hx nb hnb
    obtain rfl := Option.some.inj hx
    obtain rfl := Option.some.inj hnb
    exact Nat.le_of_eq hr.number.symm
  · show back :: older <:+ s.nativeBlocks
    rw [← hr.natives]
    exact List.dropWhile_suffix _
  · intro x hx
    obtain rfl := Option.some.inj hx
    exact id_of_dropWhile hr.natives

/-- After the link check the last native block is the parent of the received
    one. -/
theorem Coherent.link (hE : Started E startBlock) {s t : State Tx}
    {b : NativeBlock} (h : Coherent E startBlock s) (hlink : LinkedTo E s b t) :
    Coherent E startBlock t ∧ t.nativeBlocks <:+ s.nativeBlocks ∧
      (∀ back ∈ t.nativeBlocks.head?, back.id = b.prev) := by
  rcases hlink with ⟨rfl, hback⟩ | ⟨f, hfork, hroll⟩
  · exact ⟨h, List.suffix_refl _, hback⟩
  · obtain ⟨hf, hid⟩ := findForkBlock_some hfork
    obtain ⟨ht, hsuf, hback⟩ := h.rollback hE hf hroll
    exact ⟨ht, hsuf, fun back hb => (hback back hb).trans hid⟩

/-- A block dated no earlier than the last native block is dated no earlier than
    all of them. -/
theorem Coherent.dated_after {t : State Tx} {b : NativeBlock}
    (h : Coherent E startBlock t)
    (hdate : ∀ back ∈ t.nativeBlocks.head?, back.timestamp ≤ b.timestamp) :
    (∀ nb ∈ t.nativeBlocks, nb.timestamp ≤ b.timestamp) ∧
      (restoredNativeBlock startBlock).timestamp ≤ b.timestamp := by
  obtain ⟨back, older, hnat⟩ := List.exists_cons_of_ne_nil h.natives_ne
  have hback : back.timestamp ≤ b.timestamp := hdate back (by rw [hnat]; rfl)
  have hall : ∀ nb ∈ t.nativeBlocks, nb.timestamp ≤ b.timestamp := by
    intro nb hnb
    have hsorted := h.filled.sorted
    rw [hnat] at hnb hsorted
    rcases List.mem_cons.mp hnb with rfl | hmem
    · exact hback
    · exact Nat.le_trans ((List.pairwise_cons.mp hsorted).1 nb hmem) hback
  refine ⟨hall, Nat.le_trans ?_ hback⟩
  exact h.filled.dated back (by rw [hnat]; exact List.mem_cons_self)

/-- The last EVM block has not passed the received native block. -/
theorem Coherent.head_le_evmNum (hE : Started E startBlock) {t : State Tx}
    {b : NativeBlock} (h : Coherent E startBlock t)
    (hdate : ∀ back ∈ t.nativeBlocks.head?, back.timestamp ≤ b.timestamp) :
    ∀ e ∈ t.evmBlocks.head?, e.header.number ≤ E.evmNum b := by
  intro e he
  obtain ⟨back, olderNatives, hnat⟩ := List.exists_cons_of_ne_nil h.natives_ne
  have hback : back ∈ t.nativeBlocks := by rw [hnat]; exact List.mem_cons_self
  have h₁ := h.head_le e he back (by rw [hnat]; rfl)
  have h₂ := evmNum_mono hE (h.filled.dated back hback)
    ((h.dated_after hdate).1 back hback)
  omega

/-- The publishing loop ends at the EVM block of the received native block. -/
theorem Filled.extended (hE : Started E startBlock) {natives : List NativeBlock}
    {v u : State Tx} {b : NativeBlock} {fuel : Nat}
    (h : Filled E startBlock natives v.evmBlocks)
    (hle : ∀ e ∈ v.evmBlocks.head?, e.header.number ≤ E.evmNum b)
    (hext : extendEvmChain E (E.evmNum b) fuel v = .ok u) :
    ∃ curr older, u.evmBlocks = curr :: older ∧
      curr.header.number = E.evmNum b ∧
      Filled E startBlock natives (curr :: older) := by
  have hstep : ∀ (u : State Tx) (last : Block Tx) (older : List (Block Tx)),
      u.evmBlocks = last :: older → last.header.number < E.evmNum b →
      (Filled E startBlock natives u.evmBlocks ∧
        ∀ x ∈ u.evmBlocks.head?, x.header.number ≤ E.evmNum b) →
      Filled E startBlock natives (extendOnce E u last older).evmBlocks ∧
        ∀ x ∈ (extendOnce E u last older).evmBlocks.head?,
          x.header.number ≤ E.evmNum b := by
    rintro u last older hu hlt ⟨hfilled, -⟩
    rw [hu] at hfilled
    refine ⟨hfilled.extend hE, ?_⟩
    intro x hx
    obtain rfl := Option.some.inj hx
    have hnew : (generateNewEvmBlock E (setTransactionsRoot E last)).header.number
        = last.header.number + 1 := generateNewEvmBlock_number hE _
    omega
  -- at the end the last EVM block is neither above nor below the number
  obtain ⟨⟨hfilled, hle⟩, curr, older, hcurr, hge⟩ := extendEvmChain_invariant
    (P := fun u => Filled E startBlock natives u.evmBlocks ∧
      ∀ x ∈ u.evmBlocks.head?, x.header.number ≤ E.evmNum b)
    hstep fuel v u ⟨h, hle⟩ hext
  rw [hcurr] at hfilled
  refine ⟨curr, older, hcurr, ?_, hfilled⟩
  exact Nat.le_antisymm (hle curr (by rw [hcurr]; rfl)) hge

theorem Coherent.extended (hE : Started E startBlock) {t u : State Tx}
    {b : NativeBlock} {fuel : Nat} (h : Coherent E startBlock t)
    (hdate : ∀ back ∈ t.nativeBlocks.head?, back.timestamp ≤ b.timestamp)
    (hext : extendEvmChain E (E.evmNum b) fuel
      { t with nativeBlocks := b :: t.nativeBlocks } = .ok u) :
    ∃ curr older, u.evmBlocks = curr :: older ∧
      curr.header.number = E.evmNum b ∧
      Filled E startBlock t.nativeBlocks (curr :: older) :=
  Filled.extended hE (v := { t with nativeBlocks := b :: t.nativeBlocks })
    h.filled (h.head_le_evmNum hE hdate) hext

/-- The lists before the removal of irreversible blocks. -/
theorem Filled.added (hE : Started E startBlock) {natives : List NativeBlock}
    {v u : State Tx} {b : NativeBlock} {fuel : Nat} {curr curr' : Block Tx}
    {older : List (Block Tx)} {written : List (Bytes32 × ConsensusParameters)}
    (h : Filled E startBlock natives v.evmBlocks)
    (hle : ∀ e ∈ v.evmBlocks.head?, e.header.number ≤ E.evmNum b)
    (hrestored : (restoredNativeBlock startBlock).timestamp ≤ b.timestamp)
    (hlast : ∀ nb ∈ natives, nb.timestamp ≤ b.timestamp)
    (hext : extendEvmChain E (E.evmNum b) fuel v = .ok u)
    (hevm : u.evmBlocks = curr :: older)
    (hadd : addNativeBlock E curr b = .ok (curr', written)) :
    curr'.header.number = E.evmNum b ∧
      Filled E startBlock (b :: natives) (curr' :: older) := by
  obtain ⟨c, o, hevm', hnum, hfilled⟩ := h.extended hE hle hext
  rw [hevm] at hevm'
  obtain ⟨rfl, rfl⟩ := List.cons.inj hevm'
  refine ⟨?_, hfilled.add hE hnum hrestored hlast hadd⟩
  obtain ⟨txs, -, hcurr', -⟩ := addNativeBlock_ok hE.lawful hadd
  rw [hcurr']
  exact hnum

/-- The state before the removal of irreversible blocks. -/
theorem Coherent.added (hE : Started E startBlock) {t u : State Tx}
    {b : NativeBlock} {fuel : Nat} {curr curr' : Block Tx}
    {older : List (Block Tx)} {written : List (Bytes32 × ConsensusParameters)}
    (h : Coherent E startBlock t)
    (hdate : ∀ back ∈ t.nativeBlocks.head?, back.timestamp ≤ b.timestamp)
    (hext : extendEvmChain E (E.evmNum b) fuel
      { t with nativeBlocks := b :: t.nativeBlocks } = .ok u)
    (hevm : u.evmBlocks = curr :: older)
    (hadd : addNativeBlock E curr b = .ok (curr', written)) :
    u.nativeBlocks = b :: t.nativeBlocks ∧ curr'.header.number = E.evmNum b ∧
      Filled E startBlock (b :: t.nativeBlocks) (curr' :: older) := by
  obtain ⟨hall, hrestored⟩ := h.dated_after hdate
  exact ⟨(extendEvmChain_frame hext).1,
    Filled.added hE (v := { t with nativeBlocks := b :: t.nativeBlocks }) h.filled
      (h.head_le_evmNum hE hdate) hrestored hall hext hevm hadd⟩

/-- The removal of irreversible blocks leaves the last blocks alone. -/
theorem heads_of_prune {v s' : State Tx} {b : NativeBlock}
    {olderNatives : List NativeBlock} {curr : Block Tx}
    {older : List (Block Tx)} {lib : Nat}
    (hnat : v.nativeBlocks = b :: olderNatives)
    (hevm : v.evmBlocks = curr :: older)
    (hprune : removeIrreversible E v lib = .ok s') :
    s'.nativeBlocks.head? = some b ∧ s'.evmBlocks.head? = some curr := by
  rcases removeIrreversible_ok hprune with
    ⟨-, rfl⟩ | ⟨it, oldNatives, oldEvms, -, hp⟩
  · rw [hnat, hevm]
    exact ⟨rfl, rfl⟩
  · have hb := congrArg List.head? hp.natives
    have hc := congrArg List.head? hp.evms
    rw [hnat, List.head?_append_of_ne_nil _ hp.natives_ne] at hb
    rw [hevm, List.head?_append_of_ne_nil _ hp.evms_ne] at hc
    exact ⟨hb.symm, hc.symm⟩

/-- An accepted block and its EVM block are the last ones. -/
theorem Appended.heads {t s' u : State Tx} {b : NativeBlock} {curr curr' : Block Tx}
    {older : List (Block Tx)} {written : List (Bytes32 × ConsensusParameters)}
    (ha : Appended E t b s' u curr older curr' written) :
    s'.nativeBlocks.head? = some b ∧ s'.evmBlocks.head? = some curr' :=
  heads_of_prune
    (v := { u with
      evmBlocks := curr' :: older
      consensusParameters := written ++ u.consensusParameters })
    (extendEvmChain_frame ha.extended).1 rfl ha.pruned

/-- Dropping irreversible blocks keeps the invariant. -/
theorem Coherent.prune (hE : Started E startBlock) {v s' : State Tx}
    {b : NativeBlock} {olderNatives : List NativeBlock} {curr : Block Tx}
    {older : List (Block Tx)} {lib : Nat}
    (hnat : v.nativeBlocks = b :: olderNatives)
    (hevm : v.evmBlocks = curr :: older)
    (hnum : curr.header.number = E.evmNum b)
    (hfilled : Filled E startBlock (b :: olderNatives) (curr :: older))
    (hfront : FrontReached E (b :: olderNatives) (curr :: older))
    (hprune : removeIrreversible E v lib = .ok s') : Coherent E startBlock s' := by
  obtain ⟨hb, hc⟩ := heads_of_prune hnat hevm hprune
  have hhead : ∀ e ∈ s'.evmBlocks.head?, ∀ nb ∈ s'.nativeBlocks.head?,
      e.header.number ≤ E.evmNum nb := by
    intro e he nb hnb
    rw [hc] at he
    rw [hb] at hnb
    obtain rfl := Option.some.inj he
    obtain rfl := Option.some.inj hnb
    exact Nat.le_of_eq hnum
  rw [← hnat, ← hevm] at hfilled hfront
  have hkept := hfront.prune hfilled.consecutive (hfilled.evmNum_sorted hE) hprune
  -- without an entry nothing is dropped; otherwise both lists keep their heads
  rcases removeIrreversible_ok hprune with
    ⟨-, rfl⟩ | ⟨it, oldNatives, oldEvms, -, hp⟩
  · refine ⟨?_, ?_, hfilled, hhead, hkept⟩
    · rw [hnat]; exact List.cons_ne_nil _ _
    · rw [hevm]; exact List.cons_ne_nil _ _
  · rw [hp.natives, hp.evms] at hfilled
    exact ⟨hp.natives_ne, hp.evms_ne,
      hfilled.prune hp.evms_ne hp.natives_below hp.evms_front, hhead, hkept⟩

/-- An accepted native block becomes the last one, in its EVM block. -/
theorem Coherent.append (hE : Started E startBlock) {t s' : State Tx}
    {b : NativeBlock} (h : Coherent E startBlock t)
    (hdate : ∀ back ∈ t.nativeBlocks.head?, back.timestamp ≤ b.timestamp)
    (happ : appendNativeBlock E t b = .ok s') :
    Coherent E startBlock s' ∧ s'.nativeBlocks.head? = some b := by
  obtain ⟨u, curr, older, curr', written, ha⟩ := appendNativeBlock_ok happ
  obtain ⟨hnat, hnum, hfilled⟩ :=
    h.added hE hdate ha.extended ha.evms ha.added
  have hfront := h.front_reached.add (ha.frontNumber_eq hE) hfilled.consecutive hnum
  have hs' := Coherent.prune hE
    (v := { u with
      evmBlocks := curr' :: older
      consensusParameters := written ++ u.consensusParameters })
    hnat rfl hnum hfilled hfront ha.pruned
  exact ⟨hs', ha.heads.1⟩

/-- **One call keeps the invariant.** -/
theorem Coherent.step (hE : Started E startBlock) {s s' : State Tx}
    {b : NativeBlock} (h : Coherent E startBlock s) (hb : Dated E s b)
    (hstep : nativeBlocksHandler E s b = .ok s') : Coherent E startBlock s' := by
  rcases nativeBlocksHandler_ok hstep with
    ⟨hgen, -⟩ | ⟨-, rfl⟩ | ⟨t, -, hlink, happ⟩
  · exact absurd hgen hb.not_before
  · exact h
  · obtain ⟨ht, hsuf, hback⟩ := h.link hE hlink
    refine (ht.append hE ?_ happ).1
    intro back hmem
    exact hb.increasing back (hsuf.subset (List.mem_of_head? hmem))
      (hback back hmem)

/-- **The invariant over a run.** -/
theorem coherent_reach (hE : Started E startBlock) {evmLib₀ : Nat}
    {bs : List NativeBlock} {s : State Tx}
    (hrun : Reach (nativeBlocksHandler E) (Dated E)
      (initialState startBlock evmLib₀) bs s) : Coherent E startBlock s :=
  hrun.invariant (coherent_init hE evmLib₀)
    (fun _ _ _ hs hb hstep => hs.step hE hb hstep)

end Step

end BlockConversion
