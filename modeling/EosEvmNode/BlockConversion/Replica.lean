import EosEvmNode.BlockConversion.Canonical
import EosEvmNode.BlockConversion.Finality
import EosEvmNode.BlockConversion.Publishing

/-! # The published log as a replica of the native branch

    A reader that keeps, of the published blocks, those that no later one has
    replaced holds a linked chain of EVM blocks.  Below the EVM block that is still
    open, this chain is the conversion of the whole native branch: each block has the
    transactions of the native blocks of its second, in order, and the last of them as
    its upper bound.  Neither forks nor the dropping of irreversible blocks are seen
    there. -/

namespace BlockConversion

open Channels Silkworm Engine Runs NumberedLog

variable {Tx : Type}

/-- The EVM block says what the branch says about its second.  The restored native
    block lies in the EVM block after the start block, but belongs to the start
    block. -/
structure Reflects (E : Env Tx) (startBlock : Block Tx) (branch : List NativeBlock)
    (e : Block Tx) : Prop where
  contents : e.transactions.map some
    = (nativesOf E e.header.number branch).flatMap
        (fun nb => nb.actions.map (decodedTx E))
  bound : ∀ nb ∈ (nativesOf E e.header.number branch).getLast?,
    nb ≠ restoredNativeBlock startBlock → e.header.prevRandao = nb.id
  /-- No other id is there: a gap has none. -/
  bounded : e.header.prevRandao ≠ 0 →
    ∃ nb ∈ (nativesOf E e.header.number branch).getLast?, e.header.prevRandao = nb.id

section Natives

variable {E : Env Tx} {startBlock : Block Tx}

theorem nativesOf_append (k : Nat) (newer older : List NativeBlock) :
    nativesOf E k (newer ++ older) = nativesOf E k older ++ nativesOf E k newer := by
  rw [nativesOf, List.reverse_append, List.filter_append]
  rfl

theorem mem_nativesOf {k : Nat} {natives : List NativeBlock} {nb : NativeBlock} :
    nb ∈ nativesOf E k natives ↔ nb ∈ natives ∧ E.evmNum nb = k := by
  rw [nativesOf, List.mem_filter, List.mem_reverse, decide_eq_true_eq]

theorem nativesOf_eq_nil {k : Nat} {natives : List NativeBlock}
    (h : ∀ nb ∈ natives, E.evmNum nb ≠ k) : nativesOf E k natives = [] := by
  rw [List.eq_nil_iff_forall_not_mem]
  intro nb hnb
  obtain ⟨hmem, hk⟩ := mem_nativesOf.mp hnb
  exact h nb hmem hk

/-- Only the native blocks of its second matter to an EVM block. -/
theorem Reflects.congr {branch branch' : List NativeBlock} {e : Block Tx}
    (h : Reflects E startBlock branch e)
    (heq : nativesOf E e.header.number branch' = nativesOf E e.header.number branch) :
    Reflects E startBlock branch' e where
  contents := by rw [heq]; exact h.contents
  bound := by rw [heq]; exact h.bound
  bounded := by rw [heq]; exact h.bounded

end Natives

/-! ## What the publishing loop publishes -/

section Loop

variable {E : Env Tx} {startBlock : Block Tx} (hE : Started E startBlock)
include hE

/-- The last EVM block first, then empty ones without a native block id. -/
theorem grow_tail_cases : ∀ (n : Nat) (e : Block Tx), ∀ x ∈ (grow E n e).tail,
    x = setTransactionsRoot E e ∨
      (e.header.number < x.header.number ∧ x.transactions = [] ∧
        x.header.prevRandao = 0) := by
  intro n
  induction n with
  | zero => intro e x hx; cases hx
  | succ n ih =>
      intro e x hx
      rcases mem_grow_tail hx with hnew | rfl
      · have hnum := generateNewEvmBlock_number hE (setTransactionsRoot E e)
        rw [setTransactionsRoot_number] at hnum
        rcases ih _ x hnew with rfl | ⟨hlt, hempty, hzero⟩
        · refine Or.inr ⟨?_, rfl, hE.lawful.prepared_prevRandao _ _ _ _ _⟩
          rw [setTransactionsRoot_number]
          omega
        · exact Or.inr ⟨by omega, hempty, hzero⟩
      · exact Or.inl rfl

/-- No number is left out. -/
theorem exists_grow_tail {k : Nat} : ∀ (n : Nat) (e : Block Tx),
    e.header.number ≤ k → k < e.header.number + n →
    ∃ x ∈ (grow E n e).tail, x.header.number = k := by
  intro n
  induction n with
  | zero => intro e hge hlt; omega
  | succ n ih =>
      intro e hge hlt
      have hnum := generateNewEvmBlock_number hE (setTransactionsRoot E e)
      rw [setTransactionsRoot_number] at hnum
      rw [grow_succ_tail]
      by_cases heq : e.header.number = k
      · exact ⟨setTransactionsRoot E e, by simp, heq⟩
      · obtain ⟨x, hx, hk⟩ := ih (generateNewEvmBlock E (setTransactionsRoot E e))
          (by omega) (by omega)
        exact ⟨x, List.mem_append_left _ hx, hk⟩

/-- Under a number of the loop one of its blocks has been published last. -/
theorem lastPublished_grow (published : List (Block Tx)) {k n : Nat} {e : Block Tx}
    (hge : e.header.number ≤ k) (hlt : k < e.header.number + n) :
    ∃ x ∈ (grow E n e).tail, x.header.number = k ∧
      lastPublished ((grow E n e).tail ++ published) k = some x := by
  obtain ⟨y, hy, hk⟩ := exists_grow_tail hE n e hge hlt
  obtain ⟨x, hfind⟩ : ∃ x,
      (grow E n e).tail.find? (fun p => p.header.number = k) = some x := by
    refine Option.isSome_iff_exists.mp ?_
    rw [List.find?_isSome]
    exact ⟨y, hy, by simpa using hk⟩
  refine ⟨x, List.mem_of_find?_eq_some hfind, by simpa using List.find?_some hfind, ?_⟩
  rw [lastPublished, List.find?_append, hfind, Option.some_or]

/-- Under a lower number nothing changes. -/
theorem lastPublished_below {published : List (Block Tx)} {k n : Nat} {e : Block Tx}
    (hlt : k < e.header.number) :
    lastPublished ((grow E n e).tail ++ published) k = lastPublished published k := by
  have hnone : (grow E n e).tail.find? (fun p => p.header.number = k) = none := by
    rw [List.find?_eq_none]
    intro x hx
    have := (grow_tail_number hE n e x hx).1
    simp only [decide_eq_true_eq]
    omega
  rw [lastPublished, lastPublished, List.find?_append, hnone, Option.none_or]

end Loop

/-! ## The invariant -/

/-- What the log says about the branch, and what of the branch is not cached any
    more. -/
structure Replicated (E : Env Tx) (startBlock : Block Tx) (s : State Tx)
    (c : NativeChain) : Prop where
  window : Window E startBlock s c
  linked : Linked E startBlock.header.number s.evmBlocks s.published
  from_start : ∀ x ∈ s.published, startBlock.header.number ≤ x.header.number
  /-- Dropped native blocks lie below every cached EVM block. -/
  dropped : ∃ old, c.branch = s.nativeBlocks ++ old ∧
    ∀ nb ∈ old, ∀ e ∈ s.evmBlocks, E.evmNum nb < e.header.number
  bound : ∀ e ∈ s.evmBlocks.head?, ∀ nb ∈ c.branch.head?, e.header.prevRandao = nb.id
  logged : ∀ e ∈ s.evmBlocks.head?, ∀ k, startBlock.header.number ≤ k →
    k < e.header.number → ∃ x, lastPublished s.published k = some x ∧
      (startBlock.header.number < k → Reflects E startBlock c.branch x)

section Step

variable {E : Env Tx} {startBlock : Block Tx} {s s' t : State Tx} {c : NativeChain}
variable {b parent : NativeBlock} {e : Block Tx} {es : List (Block Tx)}

theorem replicated_start (hE : Started E startBlock) (evmLib₀ : Nat) :
    Replicated E startBlock (initialState startBlock evmLib₀)
      (NativeChain.start startBlock) where
  window := window_start hE evmLib₀
  linked := linked_init E startBlock
  from_start := fun x hx => (by cases hx)
  dropped := ⟨[], rfl, fun nb hnb => (by cases hnb)⟩
  bound := by
    intro e he nb hnb
    obtain rfl := Option.some.inj he
    obtain rfl := Option.some.inj hnb
    rfl
  logged := by
    intro e he k hge hlt
    obtain rfl := Option.some.inj he
    omega

/-- The link check renumbers nothing. -/
theorem LinkedTo.mem_number (h : LinkedTo E s b t) :
    ∀ x ∈ t.evmBlocks, ∃ y ∈ s.evmBlocks, y.header.number = x.header.number := by
  rcases h with ⟨rfl, -⟩ | ⟨f, -, hroll⟩
  · exact fun x hx => ⟨x, hx, rfl⟩
  · obtain ⟨back, older, e, es, txs, hr⟩ := rollback_ok hroll
    have hsuf := removeForkedEvmBlocks_suffix hr.evms
    intro x hx
    rw [hr.result] at hx
    rcases List.mem_cons.mp hx with rfl | hx
    · exact ⟨e, hsuf.subset List.mem_cons_self, rfl⟩
    · exact ⟨x, hsuf.subset (List.mem_cons_of_mem _ hx), rfl⟩

/-- What is left of the branch after the link check: the cache, and what has been
    dropped before. -/
theorem Replicated.cut (h : Replicated E startBlock s c) (hlink : LinkedTo E s b t) :
    ∃ old, c.branch.dropWhile (fun nb => nb.id ≠ b.prev) = t.nativeBlocks ++ old ∧
      ∀ nb ∈ old, ∀ x ∈ t.evmBlocks, E.evmNum nb < x.header.number := by
  obtain ⟨hnat, f, hf, hfid⟩ := hlink.natives_eq h.window.coherent.natives_ne
  obtain ⟨old, hbranch, hold⟩ := h.dropped
  refine ⟨old, ?_, ?_⟩
  · have hne : ¬ (s.nativeBlocks.dropWhile (fun nb => nb.id ≠ b.prev)).isEmpty = true := by
      rw [List.isEmpty_iff, List.dropWhile_eq_nil_iff]
      intro hall
      have := hall f hf
      simp [hfid] at this
    rw [hbranch, List.dropWhile_append, if_neg hne, hnat]
  · intro nb hnb x hx
    obtain ⟨y, hy, hnum⟩ := hlink.mem_number x hx
    have := hold nb hnb y hy
    omega

/-- After the link check the last EVM block has its parent's upper bound. -/
theorem Replicated.bound_linked (h : Replicated E startBlock s c)
    (hlink : LinkedTo E s b t) (hplaced : Placed E startBlock c parent t e es) :
    e.header.prevRandao = parent.id := by
  rcases hlink with ⟨rfl, -⟩ | ⟨f, -, hroll⟩
  · have hnewest := h.window.newest_eq
    rw [hplaced.newest] at hnewest
    exact h.bound e (by rw [hplaced.evms]; rfl) parent hnewest.symm
  · obtain ⟨back, older, x, xs, txs, hr⟩ := rollback_ok hroll
    have hnewest := hplaced.newest
    have hevms := hplaced.evms
    rw [hr.result] at hnewest hevms
    obtain rfl := Option.some.inj hnewest
    obtain ⟨rfl, -⟩ := List.cons.inj hevms
    rfl

/-- What the link check leaves of the branch ends at the parent. -/
theorem Follows.cut (hc : c.Wf startBlock) (hb : Follows c b parent) :
    ∃ newer older, c.branch = newer ++ parent :: older ∧
      c.branch.dropWhile (fun nb => nb.id ≠ b.prev) = parent :: older ∧
      (∀ nb ∈ newer, parent.timestamp ≤ nb.timestamp) ∧
      ∀ nb ∈ older, nb.timestamp ≤ parent.timestamp := by
  obtain ⟨newer, older, hbranch, hdrop⟩ := hc.dropWhile_eq hb.mem hb.link
  have hpair := hc.pairwise
  rw [hbranch, List.pairwise_append, List.pairwise_cons] at hpair
  exact ⟨newer, older, hbranch, hdrop,
    fun nb hnb => (hpair.2.2 nb hnb parent List.mem_cons_self).2,
    fun nb hnb => (hpair.2.1.1 nb hnb).2⟩

/-- The EVM block to publish has the contents of its second. -/
theorem Replicated.last_contents (hE : Started E startBlock)
    (h : Replicated E startBlock s c) (hlink : LinkedTo E s b t)
    (hplaced : Placed E startBlock c parent t e es)
    (hpos : startBlock.header.number < e.header.number) :
    e.transactions.map some
      = (nativesOf E e.header.number
          (c.branch.dropWhile (fun nb => nb.id ≠ b.prev))).flatMap
            (fun nb => nb.actions.map (decodedTx E)) := by
  obtain ⟨ht, -, -⟩ := h.window.coherent.link hE hlink
  obtain ⟨old, hcut, hold⟩ := h.cut hlink
  have hmem : e ∈ t.evmBlocks := by rw [hplaced.evms]; exact List.mem_cons_self
  have hnone : nativesOf E e.header.number old = [] := by
    refine nativesOf_eq_nil ?_
    intro nb hnb
    have := hold nb hnb e hmem
    omega
  rw [ht.filled.contents e hmem hpos, contents_eq_flatMap, hcut, nativesOf_append, hnone]
  rfl

/-- **What is published for a block** reflects the branch it continues. -/
theorem Replicated.published_reflects (hE : Started E startBlock)
    (h : Replicated E startBlock s c) (hb : Follows c b parent)
    (hlink : LinkedTo E s b t) (hplaced : Placed E startBlock c parent t e es)
    {x : Block Tx} (hx : x ∈ (grow E (E.evmNum b - e.header.number) e).tail)
    (hpos : startBlock.header.number < x.header.number) :
    Reflects E startBlock
      (b :: c.branch.dropWhile (fun nb => nb.id ≠ b.prev)) x := by
  have hlt : x.header.number < E.evmNum b := by
    have := grow_tail_number hE _ e x hx
    omega
  suffices h : Reflects E startBlock
      (c.branch.dropWhile (fun nb => nb.id ≠ b.prev)) x from
    h.congr (nativesOf_cons_of_ne _ (by omega))
  have hchain := h.window.chain
  obtain ⟨newer, older, hbranch, hcut, -, holder⟩ := hb.cut hchain
  -- no native block that is left lies above the parent
  have hle : ∀ nb ∈ parent :: older, E.evmNum nb ≤ E.evmNum parent := by
    intro nb hnb
    have hmem : nb ∈ c.branch := by
      rw [hbranch]
      exact List.mem_append_right _ hnb
    refine evmNum_mono hE (hchain.restored_le hmem) ?_
    rcases List.mem_cons.mp hnb with rfl | hnb
    · exact Nat.le_refl _
    · exact holder nb hnb
  rcases grow_tail_cases hE _ e x hx with rfl | ⟨habove, hempty, hzero⟩
  · -- the block of the parent
    rw [setTransactionsRoot_number] at hpos
    have hnum : e.header.number = E.evmNum parent := by
      rcases hplaced.place with hnum | ⟨hnum, -⟩
      · exact hnum
      · omega
    have hlast : (nativesOf E e.header.number
        (c.branch.dropWhile (fun nb => nb.id ≠ b.prev))).getLast? = some parent := by
      rw [hcut, nativesOf_cons_of_eq _ hnum.symm, List.getLast?_concat]
    have hcontents := h.last_contents hE hlink hplaced hpos
    have hbound := h.bound_linked hlink hplaced
    refine ⟨hcontents, ?_, ?_⟩
    · intro nb hnb _
      rw [setTransactionsRoot_number, hlast] at hnb
      obtain rfl := Option.some.inj hnb
      exact hbound
    · intro _
      exact ⟨parent, hlast, hbound⟩
  · -- a block that fills a gap: at most the restored native block lies there
    have honly : ∀ nb ∈ nativesOf E x.header.number
        (c.branch.dropWhile (fun nb => nb.id ≠ b.prev)),
        nb = restoredNativeBlock startBlock := by
      intro nb hnb
      obtain ⟨hmem, hk⟩ := mem_nativesOf.mp hnb
      rcases hplaced.place with hnum | ⟨-, -, hstart⟩
      · rw [hcut] at hmem
        have := hle nb hmem
        omega
      · have := (List.dropWhile_suffix _).subset hmem
        rw [hstart] at this
        exact List.mem_singleton.mp this
    refine ⟨?_, ?_, fun hne => absurd hzero hne⟩
    · rw [hempty, List.map_nil, eq_comm, List.flatMap_eq_nil_iff]
      intro nb hnb
      rw [honly nb hnb]
      rfl
    · intro nb hnb hne
      exact absurd (honly nb (List.mem_of_getLast? hnb)) hne

/-- What has been published below the parent's EVM block reflects the new branch as
    well. -/
theorem Reflects.deliver (hE : Started E startBlock) (hc : c.Wf startBlock)
    (hb : Follows c b parent) {x : Block Tx}
    (h : Reflects E startBlock c.branch x) (hlt : x.header.number < E.evmNum parent) :
    Reflects E startBlock (b :: c.branch.dropWhile (fun nb => nb.id ≠ b.prev)) x := by
  obtain ⟨newer, older, hbranch, hcut, hnewer, -⟩ := hb.cut hc
  have hparent := hc.restored_le hb.mem
  have hbnum := evmNum_mono hE hparent hb.later
  have hnone : nativesOf E x.header.number newer = [] := by
    refine nativesOf_eq_nil ?_
    intro nb hnb
    have := evmNum_mono hE hparent (hnewer nb hnb)
    omega
  refine h.congr ?_
  rw [nativesOf_cons_of_ne _ (by omega), hcut, hbranch, nativesOf_append, hnone,
    List.append_nil]

/-- Native blocks dropped before or now lie below every EVM block that is kept. -/
theorem dropped_append (hE : Started E startBlock)
    (hplaced : Placed E startBlock c parent t e es) {old : List NativeBlock}
    (hold : ∀ nb ∈ old, ∀ x ∈ t.evmBlocks, E.evmNum nb < x.header.number)
    (hle : e.header.number ≤ E.evmNum b) (ht : Coherent E startBlock t)
    (hdate : ∀ back ∈ t.nativeBlocks.head?, back.timestamp ≤ b.timestamp)
    (happ : appendNativeBlock E t b = .ok s') :
    ∃ more, b :: t.nativeBlocks = s'.nativeBlocks ++ more ∧
      ∀ nb ∈ more ++ old, ∀ x ∈ s'.evmBlocks, E.evmNum nb < x.header.number := by
  obtain ⟨u, curr, older, curr', written, ha⟩ := appendNativeBlock_ok happ
  obtain ⟨hnat, hnum, hfilled⟩ := ht.added hE hdate ha.extended ha.evms ha.added
  obtain ⟨-, holder, -⟩ := ha.advanced hE hplaced.evms
  -- the EVM blocks before the removal are those of `t`, or above the last of them
  have hkept : ∀ nb ∈ old, ∀ x ∈ curr' :: older, E.evmNum nb < x.header.number := by
    intro nb hnb x hx
    have hlast := hold nb hnb e (by rw [hplaced.evms]; exact List.mem_cons_self)
    rcases List.mem_cons.mp hx with rfl | hx
    · omega
    · rw [holder] at hx
      rcases List.mem_append.mp hx with hx | hx
      · have := (grow_tail_number hE _ e x hx).1
        omega
      · exact hold nb hnb x (by rw [hplaced.evms]; exact List.mem_cons_of_mem _ hx)
  rcases removeIrreversible_ok ha.pruned with ⟨-, rfl⟩ | ⟨it, oldNatives, oldEvms, -, hp⟩
  · refine ⟨[], ?_, hkept⟩
    rw [List.append_nil]
    exact hnat.symm
  · refine ⟨oldNatives, hnat.symm.trans hp.natives, ?_⟩
    have hevms : curr' :: older = s'.evmBlocks ++ oldEvms := hp.evms
    intro nb hnb x hx
    rcases List.mem_append.mp hnb with hnb | hnb
    · have hbelow := hp.natives_below nb hnb
      obtain ⟨front, hfront⟩ : ∃ front, s'.evmBlocks.getLast? = some front := by
        cases hfr : s'.evmBlocks.getLast? with
        | none => exact absurd (List.getLast?_eq_none_iff.mp hfr) hp.evms_ne
        | some front => exact ⟨front, rfl⟩
      have hcons : Consecutive s'.evmBlocks := by
        have := hfilled.consecutive
        rw [hevms] at this
        exact List.IsChain.left_of_append this
      have := hcons.front_le front hfront x hx
      have := hp.evms_front front hfront
      omega
    · refine hkept nb hnb x ?_
      rw [hevms]
      exact List.mem_append_left _ hx

/-- The accepted block is the upper bound of the last EVM block, in its own second. -/
theorem Coherent.append_bound (hE : Started E startBlock) {t s' : State Tx}
    (ht : Coherent E startBlock t)
    (hdate : ∀ back ∈ t.nativeBlocks.head?, back.timestamp ≤ b.timestamp)
    (happ : appendNativeBlock E t b = .ok s') :
    ∀ x ∈ s'.evmBlocks.head?, x.header.number = E.evmNum b ∧
      x.header.prevRandao = b.id := by
  obtain ⟨u, curr, older, curr', written, ha⟩ := appendNativeBlock_ok happ
  obtain ⟨-, hnum, -⟩ := ht.added hE hdate ha.extended ha.evms ha.added
  obtain ⟨txs, -, hcurr', -⟩ := addNativeBlock_ok hE.lawful ha.added
  intro x hx
  rw [ha.heads.2] at hx
  obtain rfl := Option.some.inj hx
  refine ⟨hnum, ?_⟩
  rw [hcurr']
  rfl

/-- **One accepted block** keeps the log a replica. -/
theorem Replicated.accept (hE : Started E startBlock)
    (h : Replicated E startBlock s c) (hb : Follows c b parent)
    (hs : nativeBlocksHandler E s b = .ok s') :
    Replicated E startBlock s' (c.deliver b) := by
  obtain ⟨t, e, es, hlink, happ, hplaced, hpub⟩ := h.window.republished hE hb hs
  have hdated := hb.dated hE h.window.chain h.window.cached
  obtain ⟨ht, hsuf, hback⟩ := h.window.coherent.link hE hlink
  have hdate : ∀ back ∈ t.nativeBlocks.head?, back.timestamp ≤ b.timestamp :=
    fun back hmem => hdated.increasing back
      (hsuf.subset (List.mem_of_head? hmem)) (hback back hmem)
  have hle : e.header.number ≤ E.evmNum b :=
    ht.head_le_evmNum hE hdate e (by rw [hplaced.evms]; rfl)
  have hbranch : (c.deliver b).branch
      = b :: c.branch.dropWhile (fun nb => nb.id ≠ b.prev) := by
    rw [NativeChain.deliver_of_follows hb]
  obtain ⟨old, hcut, hold⟩ := h.cut hlink
  obtain ⟨more, hmore, hdropped⟩ :=
    dropped_append hE hplaced hold hle ht hdate happ
  have hnew := ht.append_bound hE hdate happ
  have hstart : startBlock.header.number ≤ e.header.number := by
    rcases hplaced.place with hnum | ⟨hnum, -⟩
    · have := lt_evmNum hE (h.window.chain.restored_le hb.mem)
      omega
    · omega
  refine ⟨(h.window.accept hE hb hs).window,
    (linked_invariant hE (fun _ => True)).step trivial hs h.linked, ?_,
    ⟨more ++ old, ?_, hdropped⟩, ?_, ?_⟩
  · intro x hx
    rw [hpub] at hx
    rcases List.mem_append.mp hx with hx | hx
    · have := (grow_tail_number hE _ e x hx).1
      omega
    · exact h.from_start x hx
  · rw [hbranch, hcut, ← List.cons_append, hmore, List.append_assoc]
  · intro x hx nb hnb
    rw [hbranch] at hnb
    obtain rfl := Option.some.inj hnb
    exact (hnew x hx).2
  · intro x hx k hge hlt
    rw [(hnew x hx).1] at hlt
    rw [hpub, hbranch]
    by_cases hk : e.header.number ≤ k
    · -- published for this block
      have hlt' : k < e.header.number + (E.evmNum b - e.header.number) := by omega
      obtain ⟨y, hy, hnum, hlast⟩ := lastPublished_grow hE s.published hk hlt'
      refine ⟨y, hlast, ?_⟩
      intro hpos
      exact h.published_reflects hE hb hlink hplaced hy (by omega)
    · -- published before, below the parent's EVM block
      have hparent : e.header.number = E.evmNum parent := by
        rcases hplaced.place with hnum | ⟨hnum, -⟩
        · exact hnum
        · omega
      obtain ⟨last, hhead⟩ : ∃ last, s.evmBlocks.head? = some last := by
        cases hevms : s.evmBlocks with
        | nil => exact absurd hevms h.window.coherent.evms_ne
        | cons last rest => exact ⟨last, rfl⟩
      have hbelow : k < last.header.number := by
        obtain ⟨y, hy, hnum⟩ :=
          hlink.mem_number e (by rw [hplaced.evms]; exact List.mem_cons_self)
        obtain ⟨rest, hrest⟩ := List.head?_eq_some_iff.mp hhead
        have hcons := h.window.coherent.filled.consecutive
        rw [hrest] at hy hcons
        rcases List.mem_cons.mp hy with rfl | hy
        · omega
        · have := hcons.tail_lt y hy
          omega
      obtain ⟨y, hlast, hreflects⟩ := h.logged last hhead k hge hbelow
      refine ⟨y, ?_, ?_⟩
      · rw [lastPublished_below hE (by omega)]
        exact hlast
      · intro hpos
        have hnum : y.header.number = k := by simpa using List.find?_some hlast
        exact (hreflects hpos).deliver hE h.window.chain hb (by omega)

theorem trackedHandler_eq (c : NativeChain)
    (hs : nativeBlocksHandler E s b = .ok s') :
    trackedHandler E (s, c) b = .ok (s', c.deliver b) := by
  show (nativeBlocksHandler E s b >>= fun s' => _) = _
  rw [hs]
  rfl

theorem Replicated.step (hE : Started E startBlock) {p q : State Tx × NativeChain}
    (h : Replicated E startBlock p.1 p.2) (hb : Delivery E p b)
    (hstep : trackedHandler E p b = .ok q) : Replicated E startBlock q.1 q.2 := by
  obtain ⟨hs, hc⟩ := trackedHandler_ok hstep
  rw [hc]
  rcases hb with hdup | ⟨parent, hb⟩
  · rw [hdup.handler_eq] at hs
    rw [h.window.deliver_of_redelivered hdup, ← Except.ok.inj hs]
    exact h
  · exact h.accept hE hb hs

/-- **The replica over a run.** -/
theorem replicated_reach (hE : Started E startBlock) {evmLib₀ : Nat}
    {bs : List NativeBlock} {p : State Tx × NativeChain}
    (hrun : Reach (trackedHandler E) (Delivery E)
      (initialState startBlock evmLib₀, NativeChain.start startBlock) bs p) :
    Replicated E startBlock p.1 p.2 :=
  hrun.invariant (P := fun q => Replicated E startBlock q.1 q.2)
    (replicated_start hE evmLib₀) (fun _ _ _ hq hb hstep => hq.step hE hb hstep)

end Step

/-! ## The reader -/

section Reader

variable {E : Env Tx} {startBlock : Block Tx} {s : State Tx} {c : NativeChain}
variable {start : Nat} {published : List (Block Tx)}

theorem LogLinked.tail {p : Block Tx} (h : LogLinked E start (p :: published)) :
    LogLinked E start published :=
  fun q older hq => h q older (hq.trans (List.suffix_cons _ _))

/-- Numbers of the log go up by one at most. -/
theorem LogLinked.gapless : ∀ {published : List (Block Tx)},
    LogLinked E start published → Gapless blockNumber published := by
  intro published
  induction published with
  | nil => exact fun _ => List.isChain_nil
  | cons p older ih =>
      intro h
      exact List.isChain_cons.mpr ⟨(h p older (List.suffix_refl _)).2, ih h.tail⟩

/-- **What a reader holds is a chain**: consecutive numbers, each block on top of the
    one below it. -/
theorem LogLinked.view_linked (h : LogLinked E start published)
    (hstart : ∀ x ∈ published, start ≤ x.header.number) :
    (view blockNumber published).IsChain (fun x y =>
      x.header.number = y.header.number + 1 ∧
        x.header.parentHash = E.libs.hash y.header) := by
  refine h.gapless.isChain_view ?_
  intro x older hsuf y hnum hlast
  have hnum' : x.header.number = y.header.number + 1 := hnum
  have hy : y ∈ published :=
    hsuf.subset (List.mem_cons_of_mem _ (List.mem_of_find?_eq_some hlast))
  have hge := hstart y hy
  obtain ⟨q, hq, hpar⟩ := (h x older hsuf).1 (by omega)
  have hyq : lastPublished older (x.header.number - 1) = some y := by
    rw [show x.header.number - 1 = y.header.number by omega]
    exact hlast
  rw [hyq] at hq
  obtain rfl := Option.some.inj hq
  exact ⟨hnum', hpar⟩

/-- Below the open EVM block the reader holds every block, and what it holds reflects
    the branch. -/
theorem Replicated.view_reflects (h : Replicated E startBlock s c) {last : Block Tx}
    (hlast : s.evmBlocks.head? = some last) :
    (∀ k, startBlock.header.number ≤ k → k < last.header.number →
      ∃ x ∈ view blockNumber s.published, x.header.number = k) ∧
    ∀ x ∈ view blockNumber s.published, startBlock.header.number < x.header.number →
      x.header.number < last.header.number → Reflects E startBlock c.branch x := by
  constructor
  · intro k hge hlt
    obtain ⟨x, hfind, -⟩ := h.logged last hlast k hge hlt
    refine ⟨x, h.linked.log.gapless.mem_view_of_find? ?_ hfind,
      by simpa using List.find?_some hfind⟩
    intro y hy
    have := h.linked.head_le last hlast y hy
    show k ≤ y.header.number
    omega
  · intro x hx hpos hlt
    have hfind : lastPublished s.published x.header.number = some x :=
      find?_of_mem_view hx
    obtain ⟨y, hy, hreflects⟩ := h.logged last hlast x.header.number (by omega) hlt
    rw [hfind] at hy
    obtain rfl := Option.some.inj hy
    exact hreflects hpos

end Reader

/-- **The published log is a replica of the native branch**, in every run with
    whatever forks: what a reader holds is a linked chain from the start block on, and
    below the open EVM block it is complete and is what the whole branch converts to,
    block by block. -/
theorem published_replica {X : Externals Tx} {db : ChainData Tx} {height : Option Nat}
    {startBlock : Block Tx} {E : Env Tx} {s₀ : State Tx}
    (hload : Loaded X db height startBlock E s₀) {bs : List NativeBlock}
    {p : State Tx × NativeChain}
    (hrun : Reach (trackedHandler E) (Delivery E)
      (s₀, NativeChain.start startBlock) bs p) :
    (view blockNumber p.1.published).IsChain (fun x y =>
      x.header.number = y.header.number + 1 ∧
        x.header.parentHash = E.libs.hash y.header) ∧
    (∀ x ∈ view blockNumber p.1.published, startBlock.header.number ≤ x.header.number) ∧
    ∀ last, p.1.evmBlocks.head? = some last →
      (∀ k, startBlock.header.number ≤ k → k < last.header.number →
        ∃ x ∈ view blockNumber p.1.published, x.header.number = k) ∧
      ∀ x ∈ view blockNumber p.1.published, startBlock.header.number < x.header.number →
        x.header.number < last.header.number → Reflects E startBlock p.2.branch x := by
  have hE := hload.started
  obtain ⟨evmLib₀, rfl⟩ := hload.initial
  have h := replicated_reach hE hrun
  exact ⟨h.linked.log.view_linked h.from_start,
    fun x hx => h.from_start x (mem_of_mem_view hx), fun last hlast => h.view_reflects hlast⟩

/-- After the fork of `plainFork` the reader holds EVM blocks 1 and 0; block 1 has the
    transaction of native block 2 and not that of the block that was replaced. -/
theorem published_replica_plainFork :
    ∃ p, Reach (trackedHandler plainEnv) (Delivery plainEnv)
        (initialState plainGenesis 0, NativeChain.start plainGenesis) plainFork p ∧
      (view blockNumber p.1.published).map (fun x => (x.header.number, x.transactions))
        = [(1, [[1, 2]]), (0, [])] ∧
      ∀ last, p.1.evmBlocks.head? = some last →
        ∀ x ∈ view blockNumber p.1.published, 0 < x.header.number →
          x.header.number < last.header.number →
            Reflects plainEnv plainGenesis p.2.branch x := by
  have hcheck : checkRun (trackedHandler plainEnv) (Delivery plainEnv)
      (initialState plainGenesis 0, NativeChain.start plainGenesis) plainFork = true := by
    decide +kernel
  obtain ⟨p, hp⟩ := exists_reach hcheck
  have hview : (view blockNumber p.1.published).map
      (fun x => (x.header.number, x.transactions)) = [(1, [[1, 2]]), (0, [])] :=
    hp.eval (f := fun p => (view blockNumber p.1.published).map
      (fun x => (x.header.number, x.transactions))) (by decide +kernel)
  exact ⟨p, hp, hview,
    fun last hlast => ((published_replica (plainEnv_loaded 0) hp).2.2 last hlast).2⟩

end BlockConversion
