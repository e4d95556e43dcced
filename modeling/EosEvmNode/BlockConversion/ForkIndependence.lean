import EosEvmNode.BlockConversion.Canonical
import EosEvmNode.BlockConversion.LibWindow

/-! # Forks — what an abandoned branch leaves behind

    Two runs are compared: one that is given a native chain with its abandoned
    branches and repeated blocks, and one that is given the final branch only.
    The rollback takes the transactions of the abandoned native blocks out of the
    EVM block of the fork point and resets its upper bound.  It does not restore
    that block's version, fees, prices and consensus parameters, and an EVM block
    the restored native block opened keeps an upper bound it would not have had.

    `Undone` says when there was nothing to restore and the transactions come off.
    As long as every fork is one of these, the EVM blocks are a part of the chain the current branch
    converts to (`Tracks`), and so the two runs agree. -/

namespace BlockConversion

open Channels Silkworm Engine Runs

variable {Tx : Type}

/-! ## Clean forks -/

/-- The received block fits the EVM chain of its own branch, and the blocks it
    replaces have left nothing that the rollback would have to restore. -/
structure Undone (E : Env Tx) (startBlock : Block Tx) (c : NativeChain)
    (b : NativeBlock) : Prop where
  fits : (convert E startBlock (b :: c.kept b)).toOption.isSome
  /-- The abandoned transactions in the EVM block of the fork point come off. -/
  removable : ∀ parent ∈ (c.kept b).head?, ∀ nb ∈ c.abandoned b,
    Removable E parent nb
  /-- The abandoned native blocks in the EVM block of the fork point have put
      its parameters back where they found them. -/
  params : ∀ r ∈ (convert E startBlock (c.kept b)).toOption,
    (nativesOf E r.1.header.number (c.abandoned b)).foldl
      (Params.afterNative E) (Params.of r.1) = Params.of r.1
  /-- A fork at the restored native block goes on in the same EVM block. -/
  upperBound : c.abandoned b = [] ∨ 1 < (c.kept b).length ∨
    ∀ parent ∈ (c.kept b).head?, E.evmNum b = E.evmNum parent

instance (E : Env Tx) (startBlock : Block Tx) (c : NativeChain) (b : NativeBlock) :
    Decidable (Undone E startBlock c b) :=
  decidable_of_iff ((convert E startBlock (b :: c.kept b)).toOption.isSome ∧
      (∀ parent ∈ (c.kept b).head?, ∀ nb ∈ c.abandoned b, Removable E parent nb) ∧
      (∀ r ∈ (convert E startBlock (c.kept b)).toOption,
        (nativesOf E r.1.header.number (c.abandoned b)).foldl
          (Params.afterNative E) (Params.of r.1) = Params.of r.1) ∧
      (c.abandoned b = [] ∨ 1 < (c.kept b).length ∨
        ∀ parent ∈ (c.kept b).head?, E.evmNum b = E.evmNum parent))
    ⟨fun ⟨h₁, h₂, h₃, h₄⟩ => ⟨h₁, h₂, h₃, h₄⟩,
      fun ⟨h₁, h₂, h₃, h₄⟩ => ⟨h₁, h₂, h₃, h₄⟩⟩

/-- A repeated block, or the next block of the native chain, leaving nothing
    behind of what it replaces. -/
def CleanDelivery (E : Env Tx) (startBlock : Block Tx)
    (p : State Tx × NativeChain) (b : NativeBlock) : Prop :=
  Redelivered E p.1 b ∨
    (∃ parent, Follows p.2 b parent) ∧ Undone E startBlock p.2 b

instance (E : Env Tx) (startBlock : Block Tx) (p : State Tx × NativeChain)
    (b : NativeBlock) : Decidable (CleanDelivery E startBlock p b) :=
  inferInstanceAs (Decidable (_ ∨ _))

theorem Undone.converts {E : Env Tx} {startBlock : Block Tx} {c : NativeChain}
    {b : NativeBlock} (h : Undone E startBlock c b) :
    ∃ x xs, convert E startBlock (b :: c.kept b) = .ok (x, xs) := by
  have hfits := h.fits
  cases hc : convert E startBlock (b :: c.kept b) with
  | error err => rw [hc] at hfits; cases hfits
  | ok r => exact ⟨r.1, r.2, rfl⟩

section Fork

variable {E : Env Tx} {startBlock : Block Tx} {s t : State Tx} {c : NativeChain}
  {b parent : NativeBlock}

/-- The link check cuts the cache where it cuts the branch. -/
theorem Window.split_at (hE : Started E startBlock) (h : Window E startBlock s c)
    (hb : Follows c b parent) (hlink : LinkedTo E s b t) :
    s.nativeBlocks = c.abandoned b ++ t.nativeBlocks ∧
      t.nativeBlocks <+: c.kept b := by
  obtain ⟨hnat, f, hf, hfid⟩ := hlink.natives_eq h.coherent.natives_ne
  refine ⟨?_, (h.after_link hE hb hlink).1⟩
  have hne : s.nativeBlocks.dropWhile (fun nb => nb.id ≠ b.prev) ≠ [] := by
    intro hnil
    rw [List.dropWhile_eq_nil_iff] at hnil
    have := hnil f hf
    simp [hfid] at this
  rw [NativeChain.abandoned, ← (cut_unique h.cached hne).1, hnat,
    List.takeWhile_append_dropWhile]

/-- The kept branch starts at the parent. -/
theorem NativeChain.Wf.kept_eq (hc : c.Wf startBlock) (hb : Follows c b parent) :
    ∃ older, c.kept b = parent :: older := by
  obtain ⟨-, older, -, hdrop⟩ := hc.dropWhile_eq hb.mem hb.link
  exact ⟨older, hdrop⟩

theorem NativeChain.Wf.kept (hc : c.Wf startBlock) (hb : Follows c b parent)
    (lib : Option Nat) : NativeChain.Wf startBlock ⟨c.kept b, lib⟩ := by
  obtain ⟨older, hkept⟩ := hc.kept_eq hb
  have hne : c.kept b ≠ [] := by
    rw [hkept]
    exact List.cons_ne_nil _ _
  exact hc.suffix hne (List.dropWhile_suffix _) lib

/-- Where the rolled-back EVM block is in the chain of the branch. -/
theorem Tracks.cut (hE : Started E startBlock)
    (h : Tracks E startBlock c.branch s.evmBlocks) (hc : c.Wf startBlock)
    (hb : Follows c b parent) (hfork : c.abandoned b ≠ []) {e : Block Tx}
    {es : List (Block Tx)}
    (hpop : removeForkedEvmBlocks E parent s.evmBlocks = e :: es)
    {last : Block Tx} {published : List (Block Tx)}
    (hkept : convert E startBlock (c.kept b) = .ok (last, published)) :
    ∃ x xs front y, convert E startBlock c.branch = .ok (x, xs) ∧
      Within E (c.abandoned b) last published (x :: xs) front y ∧
      rootless e = rootless y ∧ es.map rootless <+: published.map rootless := by
  obtain ⟨older, hparent⟩ := hc.kept_eq hb
  have hkeptne : c.kept b ≠ [] := by
    rw [hparent]
    exact List.cons_ne_nil _ _
  have hnum : last.header.number = E.evmNum parent :=
    (convert_ok hE (hc.kept hb none) hkept).number parent (by rw [hparent]; rfl)
  rcases h with ⟨hstart, -⟩ | ⟨x, xs, hconv, hpre⟩
  · -- the restored block alone has no fork
    have hlen := congrArg List.length (c.abandoned_append_kept b)
    rw [List.length_append, hstart] at hlen
    have h₁ := List.length_pos_iff.mpr hfork
    have h₂ := List.length_pos_iff.mpr hkeptne
    simp only [List.length_singleton] at hlen
    omega
  · have hbranch : c.branch = c.abandoned b ++ c.kept b :=
      (c.abandoned_append_kept b).symm
    have hwhole := hc.suffix (by simp [hbranch, hkeptne])
      (List.suffix_refl c.branch) none
    rw [hbranch] at hwhole hconv
    obtain ⟨last', published', front, y, hkept', hin⟩ :=
      convert_append hE hkeptne hwhole hconv
    rw [← hbranch] at hconv
    obtain ⟨rfl, rfl⟩ := Prod.mk.inj (Except.ok.inj (hkept'.symm.trans hkept))
    refine ⟨x, xs, front, y, hconv, hin, ?_⟩
    -- both lists are cut at the EVM block of the fork point
    have hcut : ∀ evms : List (Block Tx),
        (evms.map rootless).dropWhile
            (fun z => decide (E.evmNum parent < z.header.number))
          = (removeForkedEvmBlocks E parent evms).map rootless := by
      intro evms
      rw [List.dropWhile_map]
      rfl
    have hchain : removeForkedEvmBlocks E parent (x :: xs) = y :: published' := by
      have hdrop : front.dropWhile
          (fun z => decide (E.evmNum parent < z.header.number)) = [] := by
        rw [List.dropWhile_eq_nil_iff]
        intro z hz
        have := hin.above z hz
        simp only [decide_eq_true_eq]
        omega
      rw [hin.chain, removeForkedEvmBlocks, List.dropWhile_append, hdrop]
      have := hin.number
      simp only [List.isEmpty_nil, if_true]
      rw [List.dropWhile_cons, if_neg (by simp only [decide_eq_true_eq]; omega)]
    have hprefix := (cut_unique hpre (by
      rw [hcut, hpop]
      exact List.cons_ne_nil _ _)).2
    rw [hcut, hcut, hpop, hchain, List.map_cons, List.map_cons,
      List.cons_prefix_cons] at hprefix
    exact hprefix

/-- **The rollback leaves the chain of the kept branch**, up to root and upper
    bound of its last block, when there are no parameters to restore. -/
theorem Tracks.rollback (hE : Started E startBlock) (hw : Window E startBlock s c)
    (h : Tracks E startBlock c.branch s.evmBlocks) (hb : Follows c b parent)
    (hfork : c.abandoned b ≠ []) {back : NativeBlock} {older : List NativeBlock}
    {e : Block Tx} {es : List (Block Tx)} {txs : List Tx}
    (hr : RolledBack E s parent t back older e es txs)
    (hlink : LinkedTo E s b t) {last : Block Tx} {published : List (Block Tx)}
    (hkept : convert E startBlock (c.kept b) = .ok (last, published))
    (hparams : (nativesOf E last.header.number (c.abandoned b)).foldl
      (Params.afterNative E) (Params.of last) = Params.of last) :
    unbound { e with transactions := txs } = unbound last ∧
      es.map rootless <+: published.map rootless := by
  obtain ⟨x, xs, front, y, hconv, hin, hroot, hes⟩ :=
    h.cut hE hw.chain hb hfork hr.evms hkept
  refine ⟨?_, hes⟩
  obtain ⟨keptOlder, hparent⟩ := hw.chain.kept_eq hb
  have hckept := convert_ok hE (hw.chain.kept hb none) hkept
  have hcbranch := convert_ok hE
    (hw.chain.suffix (by rw [← c.abandoned_append_kept b]; simp [hparent])
      (List.suffix_refl _) none) hconv
  have hnum : last.header.number = E.evmNum parent :=
    hckept.number parent (by rw [hparent]; rfl)
  have hlt : startBlock.header.number < last.header.number := by
    rw [hnum]
    exact lt_evmNum hE (hw.chain.restored_le hb.mem)
  have he : e.header.number = last.header.number :=
    (number_of_unbound (unbound_of_rootless hroot)).trans hin.number
  have hetxs : e.transactions = y.transactions := by
    show (rootless e).transactions = _
    rw [hroot]
    rfl
  -- the transactions left are those of the kept native blocks
  obtain ⟨hnat, -⟩ := hw.split_at hE hb hlink
  have hemem : e ∈ s.evmBlocks :=
    (removeForkedEvmBlocks_suffix hr.evms).subset List.mem_cons_self
  have hycontents := hcbranch.filled.contents y
    (by rw [hin.chain]; exact List.mem_append_right _ List.mem_cons_self)
    (by rw [hin.number]; exact hlt)
  have hcontents := hw.coherent.filled.contents e hemem (by omega)
  have htcontents : contents E last.header.number t.nativeBlocks
      = contents E last.header.number (c.kept b) := by
    have hcontents := hcontents
    rw [he, hnat, contents_append] at hcontents
    rw [hin.number, ← c.abandoned_append_kept b, contents_append, ← hetxs,
      hcontents] at hycontents
    exact List.append_cancel_right hycontents
  have htxs : txs = last.transactions := by
    have hcut := hr.cut (he.trans hnum) hcontents
    rw [he, ← show t.nativeBlocks = back :: older by rw [hr.result], htcontents,
      ← hckept.filled.contents last List.mem_cons_self hlt] at hcut
    exact List.map_injective_iff.mpr (fun _ _ => Option.some.inj) hcut
  have hpar : Params.of y = Params.of last := hin.grown.params.trans hparams
  calc unbound { e with transactions := txs }
      = unbound { y with transactions := txs } := by
        show unbound { rootless e with transactions := txs } = _
        rw [hroot]
        rfl
    _ = unbound { (Params.of last).set y with
          transactions := last.transactions } := by
        rw [← hpar, htxs, Params.set_of]
    _ = unbound last := hin.grown.rest

/-- How the next block of the native chain is linked: it goes on top, or the
    handler rolls back to its parent. -/
theorem Window.link_cases (hE : Started E startBlock)
    (h : Window E startBlock s c) (hb : Follows c b parent)
    (hrem : ∀ nb ∈ c.abandoned b, Removable E parent nb) :
    ∃ t, nativeBlocksHandler E s b = appendNativeBlock E t b ∧
      LinkedTo E s b t ∧ ((c.abandoned b = [] ∧ t = s) ∨
        (c.abandoned b ≠ [] ∧ BlockConversion.rollback E s parent = .ok t)) := by
  have hdated := hb.dated hE h.chain h.cached
  obtain ⟨older, hkept⟩ := h.chain.kept_eq hb
  have hbranch := c.abandoned_append_kept b
  cases habandoned : c.abandoned b with
  | nil =>
      have htop : ∀ back ∈ s.nativeBlocks.head?, back.id = b.prev := by
        intro back hback
        rw [h.newest_eq, ← hbranch, habandoned, hkept] at hback
        obtain rfl := Option.some.inj hback
        exact hb.link
      exact ⟨s, handler_of_onTop hdated htop, Or.inl ⟨rfl, htop⟩,
        Or.inl ⟨rfl, rfl⟩⟩
  | cons x newer =>
      -- the newest block is an abandoned one
      have hx : x.id ≠ b.prev := by
        have hmem : x ∈ c.abandoned b := by
          rw [habandoned]
          exact List.mem_cons_self
        simpa using List.mem_takeWhile_imp hmem
      have hnewest : s.nativeBlocks.head? = some x := by
        rw [h.newest_eq, ← hbranch, habandoned]
        rfl
      obtain ⟨r, hlink⟩ := h.link_total hE hb.mem hb.link hb.above_lib hrem
      rcases linkNativeBlock_ok hlink with
        ⟨-, hdup⟩ | ⟨-, hback⟩ | ⟨f, t, hf, hroll, rfl⟩
      · obtain ⟨nb, hnb, hid⟩ := List.any_eq_true.mp hdup
        exact absurd (by simpa using hid) (hb.fresh nb (h.cached.subset hnb))
      · exact absurd (hback x hnewest) hx
      · obtain ⟨hfmem, hfid⟩ := findForkBlock_some hf
        obtain rfl : f = parent := h.chain.eq_of_id (h.cached.subset hfmem) hb.mem
          (hfid.trans hb.link.symm)
        refine ⟨t, ?_, Or.inr ⟨f, hf, hroll⟩, Or.inr ⟨List.cons_ne_nil _ _, hroll⟩⟩
        rw [nativeBlocksHandler, if_neg hdated.not_before, hlink]
        rfl

/-- After the link check the EVM blocks serve for the received block. -/
theorem Tracks.linked (hE : Started E startBlock) (hw : Window E startBlock s c)
    (h : Tracks E startBlock c.branch s.evmBlocks) (hb : Follows c b parent)
    (hu : Undone E startBlock c b) (hlink : LinkedTo E s b t)
    (hcases : (c.abandoned b = [] ∧ t = s) ∨
      (c.abandoned b ≠ [] ∧ BlockConversion.rollback E s parent = .ok t)) :
    ∃ e es last published, t.evmBlocks = e :: es ∧
      convert E startBlock (c.kept b) = .ok (last, published) ∧
      Serves E (E.evmNum b) e es last published := by
  obtain ⟨older, hparent⟩ := hw.chain.kept_eq hb
  have hlt : startBlock.header.number < E.evmNum b := by
    exact lt_evmNum hE (Nat.le_trans (hw.chain.restored_le hb.mem) hb.later)
  rcases hcases with ⟨hnone, rfl⟩ | ⟨hfork, hroll⟩
  · have hbranch := c.abandoned_append_kept b
    rw [hnone, List.nil_append] at hbranch
    obtain ⟨e, es, hevm⟩ := List.exists_cons_of_ne_nil hw.coherent.evms_ne
    rw [hevm, ← hbranch] at h
    obtain ⟨last, published, hkept, hserves⟩ := h.serves hE hlt
    exact ⟨e, es, last, published, hevm, hkept, hserves⟩
  · obtain ⟨back, oldNatives, e, es, txs, hr⟩ := rollback_ok hroll
    have hkeptne : c.kept b ≠ [] := by
      rw [hparent]
      exact List.cons_ne_nil _ _
    -- the kept branch converts, since the received block fits it
    obtain ⟨x, xs, hconv⟩ := hu.converts
    obtain ⟨last, published, -, hkept, -, -⟩ := (convert_cons_ok hkeptne).mp hconv
    have hckept := convert_ok hE (hw.chain.kept hb none) hkept
    have hnum := hckept.number parent (by rw [hparent]; rfl)
    have hparams := hu.params (last, published) (by rw [hkept]; rfl)
    obtain ⟨hunbound, hes⟩ := h.rollback hE hw hb hfork hr hlink hkept hparams
    refine ⟨setUpperBound { e with transactions := txs } back, es, last, published,
      by rw [hr.result], hkept, ?_⟩
    by_cases hsame : E.evmNum b ≤ last.header.number
    · exact serves_of_unbound hunbound hsame hes
    · -- the EVM block is published: its upper bound is that of the branch
      have hback : back = parent := by
        have hpre := (hw.split_at hE hb hlink).2
        rw [hr.result, hparent, List.cons_prefix_cons] at hpre
        exact hpre.1
      have hlen : 1 < (c.kept b).length := by
        rcases hu.upperBound with hnone | hlen | heq
        · exact absurd hnone hfork
        · exact hlen
        · have := heq parent (by rw [hparent]; rfl)
          omega
      obtain ⟨hrandao, hirr⟩ := hckept.bound parent (by rw [hparent]; rfl) hlen
      refine serves_of_rootless _ (rootless_of_unbound hunbound ?_ ?_) hes
      · rw [hrandao, ← hback]
        rfl
      · rw [hirr, ← hback]
        rfl

/-- **A clean step is accepted** and leaves the chain of the new branch. -/
theorem Tracks.step (hE : Started E startBlock) (hw : Window E startBlock s c)
    (h : Tracks E startBlock c.branch s.evmBlocks) (hb : Follows c b parent)
    (hu : Undone E startBlock c b) :
    ∃ s', nativeBlocksHandler E s b = .ok s' ∧
      Tracks E startBlock (c.deliver b).branch s'.evmBlocks := by
  obtain ⟨older, hparent⟩ := hw.chain.kept_eq hb
  obtain ⟨t, hhandler, hlink, hcases⟩ :=
    hw.link_cases hE hb (hu.removable parent (by rw [hparent]; rfl))
  obtain ⟨e, es, last, published, hevm, hkept, hserves⟩ :=
    h.linked hE hw hb hu hlink hcases
  have hkeptne : c.kept b ≠ [] := by
    rw [hparent]
    exact List.cons_ne_nil _ _
  obtain ⟨ht, -, -⟩ := hw.coherent.link hE hlink
  have hdate : ∀ back ∈ t.nativeBlocks.head?, back.timestamp ≤ b.timestamp := by
    intro back hback
    obtain ⟨rest, hrest⟩ := List.head?_eq_some_iff.mp hback
    have hpre := (hw.split_at hE hb hlink).2
    rw [hrest, hparent, List.cons_prefix_cons] at hpre
    rw [hpre.1]
    exact hb.later
  -- the branch up to the received block converts, so the addition cannot fail
  obtain ⟨x, xs, hconv⟩ := hu.converts
  obtain ⟨s', hs', hpre⟩ :=
    hserves.append_total hE hkeptne hkept ht hdate hevm hconv
  refine ⟨s', hhandler.trans hs', ?_⟩
  rw [NativeChain.deliver_of_follows hb]
  exact Or.inr ⟨x, xs, hconv, hpre⟩

/-- Every EVM block of the state is in the chain of the branch, up to its
    root. -/
theorem Tracks.mem {branch : List NativeBlock} {evms : List (Block Tx)}
    (h : Tracks E startBlock branch evms) :
    ∃ last published, convert E startBlock branch = .ok (last, published) ∧
      ∀ x ∈ evms, ∃ y ∈ last :: published, rootless x = rootless y := by
  rcases h with ⟨rfl, rfl⟩ | ⟨last, published, hconv, hpre⟩
  · refine ⟨_, _, rfl, ?_⟩
    intro x hx
    rw [List.mem_singleton.mp hx]
    exact ⟨setTransactionsRoot E startBlock,
      List.mem_cons_of_mem _ (List.mem_singleton_self _), rfl⟩
  · refine ⟨last, published, hconv, ?_⟩
    intro x hx
    obtain ⟨y, hy, heq⟩ := List.mem_map.mp (hpre.subset (List.mem_map_of_mem hx))
    exact ⟨y, hy, heq.symm⟩

/-- Two states that hold parts of the same chain hold the same blocks. -/
theorem Tracks.agree (hE : Started E startBlock) (hc : c.Wf startBlock)
    {evms evms' : List (Block Tx)} (h : Tracks E startBlock c.branch evms)
    (h' : Tracks E startBlock c.branch evms') {x y : Block Tx} (hx : x ∈ evms)
    (hy : y ∈ evms') (hnum : x.header.number = y.header.number) :
    rootless x = rootless y := by
  obtain ⟨last, published, hconv, hmem⟩ := h.mem
  obtain ⟨last', published', hconv', hmem'⟩ := h'.mem
  obtain ⟨rfl, rfl⟩ := Prod.mk.inj (Except.ok.inj (hconv.symm.trans hconv'))
  have hconverted := convert_ok hE (hc.suffix hc.ne_nil (List.suffix_refl _) none) hconv
  obtain ⟨u, hu, hxu⟩ := hmem x hx
  obtain ⟨v, hv, hyv⟩ := hmem' y hy
  have hxn := number_of_unbound (unbound_of_rootless hxu)
  have hyn := number_of_unbound (unbound_of_rootless hyv)
  obtain rfl : u = v :=
    hconverted.filled.consecutive.eq_of_number hu hv (by omega)
  exact hxu.trans hyv.symm

end Fork

/-! ## Two runs -/

/-- The native blocks of the final branch, oldest first, without the restored
    one. -/
def canonicalBlocks (startBlock : Block Tx) (bs : List NativeBlock) :
    List NativeBlock :=
  (bs.foldl NativeChain.deliver (NativeChain.start startBlock)).branch.reverse.tail

/-- The same virtual block. -/
structure SameBlock (x y : Block Tx) : Prop where
  number : x.header.number = y.header.number
  parentHash : x.header.parentHash = y.header.parentHash
  transactions : x.transactions = y.transactions
  nonce : x.header.nonce = y.header.nonce
  baseFeePerGas : x.header.baseFeePerGas = y.header.baseFeePerGas
  gasPrices : x.gasPrices = y.gasPrices
  consensusParameterIndex : x.consensusParameterIndex = y.consensusParameterIndex
  prevRandao : x.header.prevRandao = y.header.prevRandao

theorem sameBlock_of_rootless {x y : Block Tx} (h : rootless x = rootless y) :
    SameBlock x y := by
  have hx : x = { rootless y with header := { (rootless y).header with
      transactionsRoot := x.header.transactionsRoot } } := by
    rw [← h]
    rfl
  rw [hx]
  exact ⟨rfl, rfl, rfl, rfl, rfl, rfl, rfl, rfl⟩

/-- **Fork independence** of a delivered sequence: if its final branch alone is
    accepted then so is the whole sequence, and it leaves the same EVM blocks. -/
def ForkIndependent (E : Env Tx) (startBlock : Block Tx) (s₀ : State Tx)
    (bs : List NativeBlock) : Prop :=
  ∀ t, feed (nativeBlocksHandler E) s₀ (canonicalBlocks startBlock bs) = .ok t →
    ∃ s, feed (nativeBlocksHandler E) s₀ bs = .ok s ∧
      ∀ x ∈ s.evmBlocks, ∀ y ∈ t.evmBlocks,
        x.header.number = y.header.number → SameBlock x y

theorem trackedHandler_feed {E : Env Tx} :
    ∀ {bs : List NativeBlock} {p q : State Tx × NativeChain},
      feed (trackedHandler E) p bs = .ok q →
      feed (nativeBlocksHandler E) p.1 bs = .ok q.1 ∧
        q.2 = bs.foldl NativeChain.deliver p.2 := by
  intro bs
  induction bs with
  | nil =>
      intro p q h
      obtain rfl := Except.ok.inj h
      exact ⟨rfl, rfl⟩
  | cons b bs ih =>
      intro p q h
      rw [feed_cons] at h
      obtain ⟨r, hr, h⟩ := bind_ok h
      obtain ⟨hs, hc⟩ := trackedHandler_ok hr
      obtain ⟨hq, hd⟩ := ih h
      refine ⟨?_, ?_⟩
      · rw [feed_cons, hs]
        exact hq
      · rw [hd, hc, List.foldl_cons]

/-- **Fork independence**, as long as no fork abandons a native block that has
    moved the parameters of the fork point's EVM block. -/
theorem fork_independence {X : Externals Tx} {db : ChainData Tx}
    {height : Option Nat} {startBlock : Block Tx} {E : Env Tx} {s₀ : State Tx}
    (hload : Loaded X db height startBlock E s₀) {bs : List NativeBlock}
    (hbs : Offered (trackedHandler E) (CleanDelivery E startBlock)
      (s₀, NativeChain.start startBlock) bs) :
    ForkIndependent E startBlock s₀ bs := by
  have hE := hload.started
  obtain ⟨evmLib₀, rfl⟩ := hload.initial
  obtain ⟨p, hp, hw, htracks⟩ := hbs.total
    (P := fun q => Window E startBlock q.1 q.2 ∧
      Tracks E startBlock q.2.branch q.1.evmBlocks)
    (by
      rintro q b ⟨hw, htracks⟩ (hdup | ⟨⟨parent, hb⟩, hu⟩)
      · refine ⟨(q.1, q.2.deliver b), ?_, ?_⟩
        · rw [trackedHandler, hdup.handler_eq]
          rfl
        · rw [hw.deliver_of_redelivered hdup]
          exact ⟨hw, htracks⟩
      · obtain ⟨s', hs', htracks'⟩ := htracks.step hE hw hb hu
        refine ⟨(s', q.2.deliver b), ?_, (hw.accept hE hb hs').window, htracks'⟩
        rw [trackedHandler, hs']
        rfl)
    ⟨window_start hE evmLib₀, Or.inl ⟨rfl, rfl⟩⟩
  obtain ⟨hs, hc⟩ := trackedHandler_feed hp
  intro t ht
  refine ⟨p.1, hs, ?_⟩
  intro x hx y hy hnum
  rw [canonicalBlocks, ← show p.2 = _ from hc] at ht
  obtain ⟨-, -, htalone⟩ := feed_convert hE evmLib₀
    (hw.chain.suffix hw.chain.ne_nil (List.suffix_refl _) none) ht
  exact sameBlock_of_rootless (htracks.agree hE hw.chain htalone hx hy hnum)

/-- A fork inside EVM block 2: both versions of native block 4 carry a transaction
    of version 0.  Native block 3 is repeated afterwards.  Native block 2 lies in the
    slot the restored one is dated at. -/
def plainReplaced : List NativeBlock :=
  [plainNative 2 0 0 20 1 [plainPayload 0 0 [1, 2]],
   plainNative 3 0 0 22 1 [],
   plainNative 4 0 0 23 1 [plainPayload 0 0 [3]],
   plainNative 4 1 0 23 1 [plainPayload 0 0 [4]],
   plainNative 3 0 0 22 1 []]

theorem fork_independence_plainReplaced :
    ForkIndependent plainEnv plainGenesis (initialState plainGenesis 0)
      plainReplaced := by
  have hcheck : checkRun (trackedHandler plainEnv)
      (CleanDelivery plainEnv plainGenesis)
      (initialState plainGenesis 0, NativeChain.start plainGenesis)
      plainReplaced = true := by decide +kernel
  exact fork_independence (plainEnv_loaded 0) (offered_of_checkRun hcheck)

/-- The abandoned native block 4 raises the version of EVM block 2 to 1; the one
    that replaces it is empty. -/
def plainRaised : List NativeBlock :=
  [plainNative 2 0 0 21 1 [],
   plainNative 3 0 0 22 1 [],
   plainNative 4 0 0 23 1 [plainPayload 1 7 [3]],
   plainNative 4 1 0 23 1 []]

/-- **The version of the abandoned block stays**: the sequence is a run of the
    native chain and is accepted, as its final branch is, but EVM block 2 differs. -/
theorem not_forkIndependent_plainRaised :
    Loaded plainExternals (storedData [plainGenesis]) none plainGenesis plainEnv
      (initialState plainGenesis 0) ∧
    Offered (trackedHandler plainEnv) (Delivery plainEnv)
      (initialState plainGenesis 0, NativeChain.start plainGenesis) plainRaised ∧
    ¬ ForkIndependent plainEnv plainGenesis (initialState plainGenesis 0)
      plainRaised := by
  have hcheck : checkRun (trackedHandler plainEnv) (Delivery plainEnv)
      (initialState plainGenesis 0, NativeChain.start plainGenesis)
      plainRaised = true := by decide +kernel
  have hfull : (feed (nativeBlocksHandler plainEnv) (initialState plainGenesis 0)
      plainRaised).map (fun s => s.evmBlocks.map
        (fun e => (e.header.number, e.header.nonce))) =
      .ok [(2, 1), (1, 0), (0, plainGenesis.header.nonce)] := by decide +kernel
  have halone : (feed (nativeBlocksHandler plainEnv) (initialState plainGenesis 0)
      (canonicalBlocks plainGenesis plainRaised)).map (fun s => s.evmBlocks.map
        (fun e => (e.header.number, e.header.nonce))) =
      .ok [(2, 0), (1, 0), (0, plainGenesis.header.nonce)] := by decide +kernel
  -- the nonce of EVM block 2 tells the two runs apart
  refine ⟨plainEnv_loaded 0, offered_of_checkRun hcheck, ?_⟩
  intro h
  obtain ⟨t, ht, htevms⟩ := map_ok halone
  obtain ⟨s, hs, hsame⟩ := h t ht
  rw [hs] at hfull
  have hsevms : s.evmBlocks.map (fun e => (e.header.number, e.header.nonce))
      = [(2, 1), (1, 0), (0, plainGenesis.header.nonce)] := Except.ok.inj hfull
  obtain ⟨x, hx, hxnum⟩ : ∃ x ∈ s.evmBlocks,
      (x.header.number, x.header.nonce) = (2, 1) := by
    refine List.mem_map.mp ?_
    rw [hsevms]
    exact List.mem_cons_self
  obtain ⟨y, hy, hynum⟩ : ∃ y ∈ t.evmBlocks,
      (y.header.number, y.header.nonce) = (2, 0) := by
    refine List.mem_map.mp ?_
    rw [htevms]
    exact List.mem_cons_self
  obtain ⟨hx2, hx1⟩ := Prod.mk.inj hxnum
  obtain ⟨hy2, hy0⟩ := Prod.mk.inj hynum
  have hnonce := (hsame x hx y hy (hx2.trans hy2.symm)).nonce
  rw [hx1, hy0] at hnonce
  exact absurd hnonce (by decide)

end BlockConversion
