import EosEvmNode.BlockConversion.NativeChain

/-! # The LIB window — what stays cached

    Pruning works from the LIB field of the received block, on two lists of two
    granularities.  `Window` says that it never drops what a fork at or above the
    largest reported LIB needs: the native blocks from the LIB entry on, and the
    EVM blocks from the one before the LIB entry's. -/

namespace BlockConversion

open Channels Silkworm Engine Runs

variable {Tx : Type}

/-! ## The front over a call -/

section Steps

variable {E : Env Tx} {startBlock : Block Tx} {s s' t : State Tx}
  {b : NativeBlock}

/-- The link check leaves the native blocks from the parent on. -/
theorem LinkedTo.natives_eq (hlink : LinkedTo E s b t)
    (hne : s.nativeBlocks ≠ []) :
    t.nativeBlocks = s.nativeBlocks.dropWhile (fun nb => nb.id ≠ b.prev) ∧
      ∃ f ∈ s.nativeBlocks, f.id = b.prev := by
  rcases hlink with ⟨rfl, hback⟩ | ⟨f, hfork, hroll⟩
  · obtain ⟨back, older, hnat⟩ := List.exists_cons_of_ne_nil hne
    have hid : back.id = b.prev := hback back (by rw [hnat]; rfl)
    refine ⟨?_, back, by rw [hnat]; exact List.mem_cons_self, hid⟩
    rw [hnat, List.dropWhile_cons, if_neg (by simp [hid])]
  · obtain ⟨hf, hid⟩ := findForkBlock_some hfork
    obtain ⟨back, older, e, es, txs, hr⟩ := rollback_ok hroll
    refine ⟨?_, f, hf, hid⟩
    rw [hr.result, ← hid]
    exact hr.natives.symm

theorem LinkedTo.evmLib_eq (hlink : LinkedTo E s b t) : t.evmLib = s.evmLib := by
  rcases hlink with ⟨rfl, -⟩ | ⟨f, -, hroll⟩
  · rfl
  · obtain ⟨back, older, e, es, txs, hr⟩ := rollback_ok hroll
    rw [hr.result]

/-- The front moves below the entry, or an older entry keeps it covered. -/
theorem Pruned.covered {it : NativeBlock} {oldNatives : List NativeBlock}
    {oldEvms : List (Block Tx)} (hp : Pruned E s s' it oldNatives oldEvms)
    (hcons : Consecutive s.evmBlocks) (hlt : evmLibOf E it < E.evmNum it)
    (hit : it ∈ s'.nativeBlocks) {lib : Nat} (hle : it.blockNum ≤ lib)
    (hbefore : (∀ k ∈ frontNumber s.evmBlocks, k < E.evmNum it) ∨
      ∃ x ∈ s.nativeBlocks, x.blockNum ≤ lib ∧
        ∀ k ∈ frontNumber s.evmBlocks, k < E.evmNum x) :
    ∃ x ∈ s'.nativeBlocks, x.blockNum ≤ lib ∧
      ∀ k ∈ frontNumber s'.evmBlocks, k < E.evmNum x := by
  rcases hp.frontNumber_le hcons with hsame | hfront
  · rw [hsame]
    rcases hbefore with hstart | ⟨x, hx, hxle, hxlt⟩
    · exact ⟨it, hit, hle, hstart⟩
    · by_cases hkept : evmLibOf E it ≤ E.evmNum x
      · exact ⟨x, hp.mem_of_le hx hkept, hxle, hxlt⟩
      · refine ⟨it, hit, hle, ?_⟩
        intro k hk
        have := hxlt k hk
        omega
  · refine ⟨it, hit, hle, ?_⟩
    intro k hk
    have := hfront k hk
    omega

end Steps

/-! ## The invariant -/

/-- What the plugin holds of the delivered chain. -/
structure Window (E : Env Tx) (startBlock : Block Tx) (s : State Tx)
    (c : NativeChain) : Prop where
  chain : c.Wf startBlock
  coherent : Coherent E startBlock s
  cached : s.nativeBlocks <+: c.branch
  head_eq : (c.lib = none ∧ s.nativeBlocks = [restoredNativeBlock startBlock]) ∨
    ∀ e ∈ s.evmBlocks.head?, ∀ nb ∈ s.nativeBlocks.head?,
      e.header.number = E.evmNum nb
  /-- Nothing has been dropped yet, or there is a block at or below a reported
      LIB in the cache whose EVM block has a cached predecessor. -/
  window : (s.nativeBlocks = c.branch ∧
      frontNumber s.evmBlocks = some startBlock.header.number) ∨
    ∃ it ∈ s.nativeBlocks, (∃ lib ∈ c.lib, it.blockNum ≤ lib) ∧
      ∀ k ∈ frontNumber s.evmBlocks, k < E.evmNum it

section Window

variable {E : Env Tx} {startBlock : Block Tx} {s s' : State Tx} {c : NativeChain}

theorem window_start (hE : Started E startBlock) (evmLib₀ : Nat) :
    Window E startBlock (initialState startBlock evmLib₀)
      (NativeChain.start startBlock) where
  chain := NativeChain.wf_start startBlock
  coherent := coherent_init hE evmLib₀
  cached := List.prefix_refl _
  head_eq := Or.inl ⟨rfl, rfl⟩
  window := Or.inl ⟨rfl, rfl⟩

/-- The cache ends where the branch ends. -/
theorem Window.newest_eq (h : Window E startBlock s c) :
    s.nativeBlocks.head? = c.branch.head? := by
  obtain ⟨rest, hrest⟩ := h.cached
  rw [← hrest, List.head?_append_of_ne_nil _ h.coherent.natives_ne]

/-- A block of the branch at or above every reported LIB is cached, and so is
    its EVM block unless it is still to come. -/
theorem Window.held (hE : Started E startBlock) (h : Window E startBlock s c)
    {p : NativeBlock} (hp : p ∈ c.branch)
    (habove : c.branch.head? = some p ∨ ∀ lib ∈ c.lib, lib ≤ p.blockNum) :
    p ∈ s.nativeBlocks ∧ ∀ k ∈ frontNumber s.evmBlocks, k < E.evmNum p := by
  rcases h.window with ⟨hall, hfront⟩ | ⟨it, hit, ⟨lib, hlib, hle⟩, hfront⟩
  · refine ⟨hall ▸ hp, ?_⟩
    intro k hk
    rw [hfront] at hk
    obtain rfl := Option.some.inj hk
    exact lt_evmNum hE (h.chain.restored_le hp)
  · -- the block is numbered from the entry on, and so dated from it on
    have hitc : it ∈ c.branch := h.cached.subset hit
    have hnum : it.blockNum ≤ p.blockNum := by
      rcases habove with hhead | habove
      · obtain ⟨rest, hrest⟩ := List.head?_eq_some_iff.mp hhead
        have hpair := h.chain.pairwise
        rw [hrest] at hpair hitc
        rcases List.mem_cons.mp hitc with rfl | hmem
        · exact Nat.le_refl _
        · have := (List.pairwise_cons.mp hpair).1 it hmem
          omega
      · have := habove lib hlib
        omega
    refine ⟨h.chain.mem_of_prefix h.cached hit hp hnum, ?_⟩
    intro k hk
    have hlt := hfront k hk
    have hmono := evmNum_mono hE (h.chain.restored_le hitc)
      (h.chain.timestamp_le hitc hp hnum)
    omega

/-- A list and a longer one are cut at the same place, if the shorter one is cut
    at all. -/
theorem cut_unique {α : Type} {p : α → Bool} {l l' : List α} (h : l <+: l')
    (hne : l.dropWhile p ≠ []) :
    l.takeWhile p = l'.takeWhile p ∧ l.dropWhile p <+: l'.dropWhile p := by
  obtain ⟨rest, rfl⟩ := h
  have hlen : ¬ (l.takeWhile p).length = l.length := by
    intro heq
    have hsplit := congrArg List.length
      (List.takeWhile_append_dropWhile (p := p) (l := l))
    rw [List.length_append, heq] at hsplit
    exact hne (List.length_eq_zero_iff.mp (by omega))
  rw [List.takeWhile_append, if_neg hlen, List.dropWhile_append,
    if_neg (by simpa using hne)]
  exact ⟨rfl, List.prefix_append _ _⟩

/-- **Forks at or above the LIB resolve**: the link check of a block on top of
    such a parent does not throw, if what it abandons can be taken out of the EVM
    block of the parent. -/
theorem Window.link_total (hE : Started E startBlock)
    (h : Window E startBlock s c) {p b : NativeBlock} (hp : p ∈ c.branch)
    (hlink : p.id = b.prev)
    (habove : c.branch.head? = some p ∨ ∀ lib ∈ c.lib, lib ≤ p.blockNum)
    (hrem : ∀ nb ∈ c.abandoned b, Removable E p nb) :
    ∃ r, linkNativeBlock E s b = .ok r := by
  obtain ⟨hmem, hfront⟩ := h.held hE hp habove
  obtain ⟨back, older, hnat⟩ := List.exists_cons_of_ne_nil h.coherent.natives_ne
  rw [linkNativeBlock, hnat]
  by_cases hprev : back.id = b.prev
  · simp only [if_pos hprev]
    exact ⟨_, rfl⟩
  · simp only [if_neg hprev]
    by_cases hdup : isCached s b.id = true
    · rw [if_pos hdup]
      exact ⟨_, rfl⟩
    · rw [if_neg hdup]
      have hids : ∀ nb ∈ s.nativeBlocks, nb.id = p.id → nb = p :=
        fun nb hnb hnbp => h.chain.eq_of_id (h.cached.subset hnb) hp hnbp
      have hevm : ∃ e ∈ s.evmBlocks, e.header.number = E.evmNum p := by
        obtain ⟨e, es, hevms⟩ := List.exists_cons_of_ne_nil h.coherent.evms_ne
        refine h.coherent.filled.consecutive.exists_number ?_ ?_
        · intro front hlast
          exact Nat.le_of_lt (hfront _ (frontNumber_eq_some hlast))
        · refine ⟨e, by rw [hevms]; rfl, ?_⟩
          rcases h.head_eq with ⟨-, hstart⟩ | hhead
          · -- the restored block alone: its child is no fork
            rw [hnat] at hstart hmem
            obtain ⟨rfl, rfl⟩ := List.cons.inj hstart
            rw [List.mem_singleton.mp hmem] at hlink
            exact absurd hlink hprev
          · rw [hhead e (by rw [hevms]; rfl) back (by rw [hnat]; rfl)]
            have hfilled := h.coherent.filled
            rw [hnat] at hfilled hmem
            exact hfilled.evmNum_le_head hE p hmem
      have hpopped : s.nativeBlocks.takeWhile (fun nb => nb.id ≠ p.id)
          = c.abandoned b := by
        rw [NativeChain.abandoned, ← hlink]
        refine (cut_unique h.cached ?_).1
        intro hnil
        rw [List.dropWhile_eq_nil_iff] at hnil
        have := hnil p hmem
        simp at this
      obtain ⟨t, ht⟩ := h.coherent.rollback_total hE hmem hids (hpopped ▸ hrem) hevm
      simp only [findForkBlock_eq hids hmem hlink, ht]
      exact ⟨_, rfl⟩

/-- The entry for a LIB is the newest cached block at or below it. -/
theorem Window.libEntry_eq (h : Window E startBlock s c) (lib : Nat) :
    libEntry s.nativeBlocks lib
      = s.nativeBlocks.find? (fun nb => nb.blockNum ≤ lib) := by
  refine libEntry_eq_find? lib ?_
  refine List.Pairwise.imp ?_ (List.Pairwise.sublist h.cached.sublist h.chain.pairwise)
  intro x y hxy
  omega

/-- The part of the cache that is kept has the same entry. -/
theorem find?_of_kept {α : Type} {p : α → Bool} {kept old : List α} {x : α}
    (h : (kept ++ old).find? p = some x) (hx : x ∈ kept) :
    kept.find? p = some x := by
  rw [List.find?_append] at h
  cases hk : kept.find? p with
  | some y => rw [hk] at h; exact h
  | none =>
      rw [List.find?_eq_none] at hk
      rw [List.find?_eq_none.mpr hk, Option.none_or] at h
      exact absurd (List.find?_some h) (hk x hx)

/-- After the link check the cache is still a window of the shortened branch, and
    no block at or below a reported LIB has been popped. -/
theorem Window.after_link (hE : Started E startBlock)
    (h : Window E startBlock s c) {t : State Tx} {b parent : NativeBlock}
    (hb : Follows c b parent) (hlink : LinkedTo E s b t) :
    t.nativeBlocks <+: c.branch.dropWhile (fun nb => nb.id ≠ b.prev) ∧
      ∀ it ∈ s.nativeBlocks, (∃ lib ∈ c.lib, it.blockNum ≤ lib) →
        it ∈ t.nativeBlocks := by
  obtain ⟨hnat, f, hf, hfid⟩ := hlink.natives_eq h.coherent.natives_ne
  obtain ⟨-, older, -, hdrop⟩ := h.chain.dropWhile_eq hb.mem hb.link
  have hcut : t.nativeBlocks <+: c.branch.dropWhile (fun nb => nb.id ≠ b.prev) := by
    rw [hnat]
    refine (cut_unique h.cached ?_).2
    intro hnil
    rw [List.dropWhile_eq_nil_iff] at hnil
    have := hnil f hf
    simp [hfid] at this
  refine ⟨hcut, ?_⟩
  intro it hit hlib
  obtain ⟨hle, -⟩ := h.chain.mem_deliver hb (h.cached.subset hit) hlib
  have hsplit := List.takeWhile_append_dropWhile
    (p := fun nb : NativeBlock => decide (nb.id ≠ b.prev)) (l := s.nativeBlocks)
  rw [← hsplit] at hit
  rcases List.mem_append.mp hit with hmem | hmem
  · -- popped blocks are numbered above the parent, which is not one of them
    have hpair := List.Pairwise.sublist h.cached.sublist h.chain.pairwise
    rw [← hsplit, List.pairwise_append] at hpair
    have hparent : parent ∈ s.nativeBlocks.dropWhile (fun nb => nb.id ≠ b.prev) := by
      have hps := (h.held hE hb.mem hb.above_lib).1
      rw [← hsplit] at hps
      rcases List.mem_append.mp hps with hpop | hkeep
      · have := List.mem_takeWhile_imp hpop
        simp [hb.link] at this
      · exact hkeep
    have := hpair.2.2 it hmem parent hparent
    omega
  · rw [hnat]
    exact hmem

/-- The removal of irreversible blocks keeps a window, and takes the EVM LIB from
    the LIB entry.  `lib` is the largest LIB reported so far. -/
theorem Window.of_prune (hE : Started E startBlock) {v : State Tx}
    {b : NativeBlock} {olderNatives : List NativeBlock} {curr : Block Tx}
    {older : List (Block Tx)} {lib : Nat} (hchain : c.Wf startBlock)
    (hnat : v.nativeBlocks = b :: olderNatives)
    (hevm : v.evmBlocks = curr :: older)
    (hnum : curr.header.number = E.evmNum b)
    (hfilled : Filled E startBlock (b :: olderNatives) (curr :: older))
    (hreached : FrontReached E (b :: olderNatives) (curr :: older))
    (hcached : b :: olderNatives <+: c.branch)
    (hrange : b.timestamp < 2 ^ 32 * 1000000)
    (hlib : lib ∈ c.lib) (hble : b.lib ≤ lib)
    (hbefore : (b :: olderNatives = c.branch ∧
        frontNumber (curr :: older) = some startBlock.header.number) ∨
      ∃ it ∈ b :: olderNatives, it.blockNum ≤ lib ∧
        ∀ k ∈ frontNumber (curr :: older), k < E.evmNum it)
    (hprune : removeIrreversible E v b.lib = .ok s') :
    Window E startBlock s' c ∧ s'.nativeBlocks.head? = some b ∧
      ((libEntry s'.nativeBlocks b.lib = none ∧ s'.evmLib = v.evmLib) ∨
        ∃ it, libEntry s'.nativeBlocks b.lib = some it ∧ it ∈ s'.nativeBlocks ∧
          it.blockNum ≤ b.lib ∧ s'.evmLib + 1 = E.evmNum it) := by
  have hcoherent := Coherent.prune hE hnat hevm hnum hfilled hreached hprune
  obtain ⟨hheadb, hheadc⟩ := heads_of_prune hnat hevm hprune
  have hheadeq : ∀ e ∈ s'.evmBlocks.head?, ∀ nb ∈ s'.nativeBlocks.head?,
      e.header.number = E.evmNum nb := by
    intro e he nb hnb
    rw [hheadc] at he
    rw [hheadb] at hnb
    obtain rfl := Option.some.inj he
    obtain rfl := Option.some.inj hnb
    exact hnum
  rcases removeIrreversible_ok hprune with
    ⟨hnone, rfl⟩ | ⟨it, oldNatives, oldEvms, hentry, hp⟩
  · refine ⟨⟨hchain, hcoherent, hnat ▸ hcached, Or.inr hheadeq, ?_⟩, hheadb,
      Or.inl ⟨hnone, rfl⟩⟩
    rw [hnat, hevm]
    rcases hbefore with hall | ⟨it, hit, hle, hlt⟩
    · exact Or.inl hall
    · exact Or.inr ⟨it, hit, ⟨lib, hlib, hle⟩, hlt⟩
  · -- the entry is a cached block at or below the LIB of the received one
    have hmem : it ∈ b :: olderNatives := hnat ▸ libEntry_mem hentry
    have hsorted : (b :: olderNatives).Pairwise
        (fun x y => y.blockNum ≤ x.blockNum) := by
      refine List.Pairwise.imp ?_
        (List.Pairwise.sublist hcached.sublist hchain.pairwise)
      intro x y hxy
      omega
    have hpos := lt_evmNum hE (hfilled.dated it hmem)
    have hfind : (b :: olderNatives).find? (fun nb => nb.blockNum ≤ b.lib)
        = some it := by
      rw [← hentry, hnat]
      exact (libEntry_eq_find? b.lib hsorted).symm
    have hitlib : it.blockNum ≤ b.lib := by simpa using List.find?_some hfind
    have hlt : evmLibOf E it < E.evmNum it := evmLibOf_lt (by omega)
    have hnatives : b :: olderNatives = s'.nativeBlocks ++ oldNatives :=
      hnat.symm.trans hp.natives
    have hits' := hp.mem_of_le (hnat.symm ▸ hmem) (Nat.le_of_lt hlt)
    have hcached' : s'.nativeBlocks <+: c.branch := by
      rw [hnatives] at hcached
      exact (List.prefix_append _ _).trans hcached
    have hentry' : libEntry s'.nativeBlocks b.lib = some it := by
      rw [libEntry_eq_find? b.lib (List.Pairwise.sublist
        (List.sublist_append_left _ oldNatives) (hnatives ▸ hsorted))]
      exact find?_of_kept (hnatives ▸ hfind) hits'
    have hmax : E.evmNum it ≤ 2 ^ 32 := by
      have hle := hfilled.evmNum_le_head hE it hmem
      have hb := evmNum_le_of_range hE (hfilled.dated b List.mem_cons_self) hrange
      omega
    have hevmLib : s'.evmLib + 1 = E.evmNum it := by
      rw [hp.evmLib, evmLibOf_eq (by omega) hmax]
      omega
    refine ⟨⟨hchain, hcoherent, hcached', Or.inr hheadeq, Or.inr ?_⟩, hheadb,
      Or.inr ⟨it, hentry', hits', hitlib, hevmLib⟩⟩
    have hcovered : ∃ x ∈ s'.nativeBlocks, x.blockNum ≤ lib ∧
        ∀ k ∈ frontNumber s'.evmBlocks, k < E.evmNum x := by
      refine hp.covered (hevm ▸ hfilled.consecutive) hlt hits' (by omega) ?_
      rw [hnat, hevm]
      refine hbefore.imp_left ?_
      rintro ⟨-, hfront⟩ k hk
      rw [hfront] at hk
      obtain rfl := Option.some.inj hk
      exact hpos
    obtain ⟨x, hx, hle, hbelow⟩ := hcovered
    exact ⟨x, hx, ⟨lib, hlib, hle⟩, hbelow⟩

/-- What an accepted block does to the window: it stays one, and the EVM LIB is
    the EVM block before the LIB entry's if there is an entry. -/
structure Accepted (E : Env Tx) (startBlock : Block Tx) (s : State Tx)
    (c : NativeChain) (b : NativeBlock) (s' : State Tx) : Prop where
  window : Window E startBlock s' (c.deliver b)
  newest : s'.nativeBlocks.head? = some b
  evmLib : (libEntry s'.nativeBlocks b.lib = none ∧ s'.evmLib = s.evmLib) ∨
    ∃ it, libEntry s'.nativeBlocks b.lib = some it ∧ it ∈ s'.nativeBlocks ∧
      it.blockNum ≤ b.lib ∧ s'.evmLib + 1 = E.evmNum it

theorem Window.accept (hE : Started E startBlock) (h : Window E startBlock s c)
    {b parent : NativeBlock} (hb : Follows c b parent)
    (hstep : nativeBlocksHandler E s b = .ok s') :
    Accepted E startBlock s c b s' := by
  have hdated := hb.dated hE h.chain h.cached
  rcases nativeBlocksHandler_ok hstep with
    ⟨hgen, -⟩ | ⟨hdup, -⟩ | ⟨t, -, hlink, happ⟩
  · exact absurd hgen hdated.not_before
  · -- a fresh block is not in the cache
    obtain ⟨nb, hnb, hid⟩ := List.any_eq_true.mp hdup
    exact absurd (by simpa using hid) (hb.fresh nb (h.cached.subset hnb))
  · -- link, extend, add: then only the removal is left
    obtain ⟨hcut, hkept⟩ := h.after_link hE hb hlink
    obtain ⟨ht, hsuf, hback⟩ := h.coherent.link hE hlink
    have hdate : ∀ back ∈ t.nativeBlocks.head?, back.timestamp ≤ b.timestamp :=
      fun back hmem => hdated.increasing back
        (hsuf.subset (List.mem_of_head? hmem)) (hback back hmem)
    obtain ⟨u, curr, older, curr', written, ha⟩ := appendNativeBlock_ok happ
    obtain ⟨hnatu, hnum, hfilled⟩ :=
      ht.added hE hdate ha.extended ha.evms ha.added
    have hfront : frontNumber (curr' :: older) = frontNumber s.evmBlocks :=
      (ha.frontNumber_eq hE).trans hlink.frontNumber_eq
    have hbranch : (c.deliver b).branch
        = b :: c.branch.dropWhile (fun nb => nb.id ≠ b.prev) := by
      rw [NativeChain.deliver_of_follows hb]
    obtain ⟨lib, hlib, hble, hcle⟩ := NativeChain.lib_deliver hb
    have hbefore : (b :: t.nativeBlocks = (c.deliver b).branch ∧
          frontNumber (curr' :: older) = some startBlock.header.number) ∨
        ∃ it ∈ b :: t.nativeBlocks, it.blockNum ≤ lib ∧
          ∀ k ∈ frontNumber (curr' :: older), k < E.evmNum it := by
      rw [hfront, hbranch]
      rcases h.window with ⟨hall, hM⟩ | ⟨it, hit, ⟨l, hl, hle⟩, hlt⟩
      · refine Or.inl ⟨?_, hM⟩
        rw [(hlink.natives_eq h.coherent.natives_ne).1, hall]
      · exact Or.inr ⟨it, List.mem_cons_of_mem _ (hkept it hit ⟨l, hl, hle⟩),
          Nat.le_trans hle (hcle l hl), hlt⟩
    obtain ⟨hwindow, hnewest, hevmLib⟩ := Window.of_prune hE
      (v := { u with
        evmBlocks := curr' :: older
        consensusParameters := written ++ u.consensusParameters })
      (h.chain.deliver hb) hnatu rfl hnum hfilled
      (ht.front_reached.add (ha.frontNumber_eq hE) hfilled.consecutive hnum)
      (hbranch ▸ List.cons_prefix_cons.mpr ⟨rfl, hcut⟩) hb.in_range hlib hble
      hbefore ha.pruned
    refine ⟨hwindow, hnewest, ?_⟩
    rw [← hlink.evmLib_eq, ← (extendEvmChain_frame ha.extended).2.1]
    exact hevmLib

/-- A block that is held already leaves the tracked chain alone. -/
theorem Window.deliver_of_redelivered (h : Window E startBlock s c)
    {b : NativeBlock} (hb : Redelivered E s b) : c.deliver b = c := by
  have hany : c.branch.any (fun nb => nb.id = b.id) = true := by
    obtain ⟨nb, hnb, hid⟩ := List.any_eq_true.mp hb.cached
    exact List.any_eq_true.mpr ⟨nb, h.cached.subset hnb, hid⟩
  rw [NativeChain.deliver, if_pos hany]

theorem Window.step (hE : Started E startBlock) {q q' : State Tx × NativeChain}
    (h : Window E startBlock q.1 q.2) {b : NativeBlock} (hb : Delivery E q b)
    (hs : nativeBlocksHandler E q.1 b = .ok q'.1) (hc : q'.2 = q.2.deliver b) :
    Window E startBlock q'.1 q'.2 := by
  rcases hb with hdup | ⟨parent, hb⟩
  · rw [hdup.handler_eq] at hs
    rw [hc, h.deliver_of_redelivered hdup, ← Except.ok.inj hs]
    exact h
  · rw [hc]
    exact (h.accept hE hb hs).window

end Window

end BlockConversion
