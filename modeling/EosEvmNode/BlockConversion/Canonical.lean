import EosEvmNode.BlockConversion.Forward
import EosEvmNode.BlockConversion.NativeChain

/-! # The virtual EVM chain of a native branch

    What the conversion is for, without caches, forks and pruning: `convert`
    folds a native branch into its EVM chain, one native block after another.
    A run that is given one branch from the start block on holds the newest part
    of that chain (`feed_convert`).

    Whether a native block can be added to an EVM block, and what comes out,
    does not depend on the transactions root and on the upper bound of that
    block (`addNativeBlock_rebound`): the two fields a rollback leaves in another
    state than the branch alone would. -/

namespace BlockConversion

open Channels Silkworm Engine Runs

variable {Tx : Type}

/-! ## Up to root and upper bound -/

/-- The block with another transactions root and another upper bound. -/
def rebound (root randao : Bytes32) (irreversible : Bool) (e : Block Tx) :
    Block Tx :=
  { e with
    header := { e.header with transactionsRoot := root, prevRandao := randao }
    irreversible := irreversible }

/-- The block without its transactions root. -/
def rootless (e : Block Tx) : Block Tx :=
  { e with header := { e.header with transactionsRoot := 0 } }

/-- The block without its transactions root and its upper bound. -/
def unbound (e : Block Tx) : Block Tx := rebound 0 0 false e

@[simp] theorem rootless_number (e : Block Tx) :
    (rootless e).header.number = e.header.number := rfl

/-- Blocks that agree up to root and upper bound are rebound versions of each
    other. -/
theorem eq_rebound_of_unbound {e f : Block Tx} (h : unbound e = unbound f) :
    e = rebound e.header.transactionsRoot e.header.prevRandao e.irreversible f := by
  have hback : e = rebound e.header.transactionsRoot e.header.prevRandao
      e.irreversible (unbound e) := rfl
  rw [hback, h]
  rfl

theorem unbound_of_rootless {e f : Block Tx} (h : rootless e = rootless f) :
    unbound e = unbound f := by
  show unbound (rootless e) = unbound (rootless f)
  rw [h]

/-- The upper bound is what `unbound` forgets besides the root. -/
theorem rootless_of_unbound {e f : Block Tx} (h : unbound e = unbound f)
    (hrandao : e.header.prevRandao = f.header.prevRandao)
    (hirr : e.irreversible = f.irreversible) : rootless e = rootless f := by
  rw [eq_rebound_of_unbound h, hrandao, hirr]
  rfl

section Rebound

variable {E : Env Tx} (root randao : Bytes32) (irr : Bool)

@[simp] theorem rebound_gasPrices (e : Block Tx) :
    (rebound root randao irr e).gasPrices = e.gasPrices := rfl

@[simp] theorem rebound_baseFeePerGas (e : Block Tx) :
    (rebound root randao irr e).header.baseFeePerGas = e.header.baseFeePerGas := rfl

theorem applyNewConfig_rebound (curr : Block Tx) (b : NativeBlock) :
    applyNewConfig E (rebound root randao irr curr) b
      = (applyNewConfig E curr b).map
          (fun r => (rebound root randao irr r.1, r.2)) := by
  unfold applyNewConfig
  cases b.newConfig with
  | none => rfl
  | some na =>
      show (if !curr.transactions.isEmpty then _ else _)
        = Except.map _ (if !curr.transactions.isEmpty then _ else _)
      cases curr.transactions.isEmpty with
      | false => rfl
      | true => cases deserializeConfig E na <;> rfl

theorem applyVersion_rebound (curr : Block Tx) (v : UInt64) (dtx : EvmTx) :
    applyVersion E (rebound root randao irr curr) v dtx
      = (applyVersion E curr v dtx).map
          (fun r => (rebound root randao irr r.1, r.2)) := by
  rw [applyVersion, applyVersion]
  by_cases hlt : dtx.eosEvmVersion < v
  · simp only [if_pos hlt]
    rfl
  · simp only [if_neg hlt]
    by_cases hgt : v < dtx.eosEvmVersion
    · simp only [if_pos hgt]
      show (if curr.transactions.isEmpty then _ else _)
        = Except.map _ (if curr.transactions.isEmpty then _ else _)
      cases curr.transactions.isEmpty <;> rfl
    · simp only [if_neg hgt]
      rfl

theorem applyGasPrices_rebound (curr : Block Tx) (v : UInt64) (dtx : EvmTx) :
    applyGasPrices E (rebound root randao irr curr) v dtx
      = (applyGasPrices E curr v dtx).map (rebound root randao irr) := by
  unfold applyGasPrices
  by_cases hv : 3 ≤ v
  · rw [if_pos hv, if_pos hv]
    cases dtx with
    | v1 version rlpx f => rfl
    | v3 version rlpx o p =>
        simp only [rebound_gasPrices]
        cases curr.gasPrices with
        | none => rfl
        | some q =>
            simp only
            by_cases hq : q ≠ ⟨o, p⟩
            · rw [if_pos hq, if_pos hq]
              show (if curr.transactions.isEmpty then _ else _)
                = Except.map _ (if curr.transactions.isEmpty then _ else _)
              cases curr.transactions.isEmpty <;> rfl
            · rw [if_neg hq, if_neg hq]
              rfl
  · rw [if_neg hv, if_neg hv]
    rfl

theorem applyBaseFee_rebound (curr : Block Tx) (v : UInt64) (dtx : EvmTx) :
    applyBaseFee (rebound root randao irr curr) v dtx
      = (applyBaseFee curr v dtx).map (rebound root randao irr) := by
  unfold applyBaseFee
  by_cases hv : 1 ≤ v ∧ v < 3
  · rw [if_pos hv, if_pos hv]
    cases dtx with
    | v3 version rlpx o p => rfl
    | v1 version rlpx f =>
        simp only [rebound_baseFeePerGas]
        cases curr.header.baseFeePerGas with
        | none => rfl
        | some x =>
            simp only
            by_cases hx : x ≠ f.toNat
            · rw [if_pos hx, if_pos hx]
              show (if curr.transactions.isEmpty then _ else _)
                = Except.map _ (if curr.transactions.isEmpty then _ else _)
              cases curr.transactions.isEmpty <;> rfl
            · rw [if_neg hx, if_neg hx]
              rfl
  · rw [if_neg hv, if_neg hv]
    rfl

theorem addTransaction_rebound (r : Block Tx × UInt64) (act : NativeAction) :
    addTransaction E (rebound root randao irr r.1, r.2) act
      = (addTransaction E r act).map
          (fun r => (rebound root randao irr r.1, r.2)) := by
  obtain ⟨curr, v⟩ := r
  rw [addTransaction, addTransaction]
  cases deserializeTx E act with
  | error err => rfl
  | ok dtx =>
      show (applyVersion E (rebound root randao irr curr) v dtx >>= _)
        = Except.map _ (applyVersion E curr v dtx >>= _)
      rw [applyVersion_rebound]
      cases applyVersion E curr v dtx with
      | error err => rfl
      | ok r₁ =>
          show (applyGasPrices E (rebound root randao irr r₁.1) r₁.2 dtx >>= _)
            = Except.map _ (applyGasPrices E r₁.1 r₁.2 dtx >>= _)
          rw [applyGasPrices_rebound]
          cases applyGasPrices E r₁.1 r₁.2 dtx with
          | error err => rfl
          | ok c₂ =>
              cases htx : E.libs.decodeTransaction dtx.rlpx with
              | none => rfl
              | some tx =>
                  show (applyBaseFee (rebound root randao irr c₂) r₁.2 dtx >>= _)
                    = Except.map _ (applyBaseFee c₂ r₁.2 dtx >>= _)
                  rw [applyBaseFee_rebound]
                  cases applyBaseFee c₂ r₁.2 dtx <;> rfl

/-- **Adding a native block** disregards the root and the upper bound the block
    had; it sets the upper bound anew. -/
theorem addNativeBlock_rebound (curr : Block Tx) (b : NativeBlock) :
    addNativeBlock E (rebound root randao irr curr) b
      = (addNativeBlock E curr b).map (fun r =>
          ({ r.1 with header := { r.1.header with transactionsRoot := root } },
            r.2)) := by
  rw [addNativeBlock, addNativeBlock, applyNewConfig_rebound]
  cases applyNewConfig E curr b with
  | error err => rfl
  | ok r =>
      have hacts := foldlM_map (addTransaction_rebound (E := E) root randao irr) b.actions
        (r.1, E.libs.nonceToVersion curr.header.nonce)
      show (b.actions.foldlM (addTransaction E) (rebound root randao irr r.1,
          E.libs.nonceToVersion curr.header.nonce) >>= _) = Except.map _
        (b.actions.foldlM (addTransaction E)
          (r.1, E.libs.nonceToVersion curr.header.nonce) >>= _)
      rw [hacts]
      cases b.actions.foldlM (addTransaction E)
        (r.1, E.libs.nonceToVersion curr.header.nonce) <;> rfl

end Rebound

/-- What is added to two blocks that agree up to root and upper bound agrees up
    to the root. -/
theorem addNativeBlock_of_unbound {E : Env Tx} {curr curr' e : Block Tx}
    {b : NativeBlock} {written : List (Bytes32 × ConsensusParameters)}
    (heq : unbound e = unbound curr)
    (h : addNativeBlock E curr b = .ok (curr', written)) :
    ∃ e', addNativeBlock E e b = .ok (e', written) ∧
      rootless e' = rootless curr' := by
  rw [eq_rebound_of_unbound heq, addNativeBlock_rebound, h]
  exact ⟨_, rfl, rfl⟩

/-! ## The chain of a branch -/

/-- The EVM chain of a native branch, newest first: the block the branch ends in
    and those before it.  The oldest native block is the restored one, which
    opens the EVM block after the start block. -/
def convert (E : Env Tx) (startBlock : Block Tx) :
    List NativeBlock → Except Failure (Block Tx × List (Block Tx))
  | b :: parent :: older => do
      let (last, published) ← convert E startBlock (parent :: older)
      let n := E.evmNum b - last.header.number
      let (curr, _) ← addNativeBlock E (advance E n last) b
      .ok (curr, (grow E n last).tail ++ published)
  | _ =>
      .ok (generateNewEvmBlock E (setTransactionsRoot E startBlock),
        [setTransactionsRoot E startBlock])

theorem convert_cons_ok {E : Env Tx} {startBlock : Block Tx} {b : NativeBlock}
    {rest : List NativeBlock} (hne : rest ≠ []) {x : Block Tx}
    {xs : List (Block Tx)} :
    convert E startBlock (b :: rest) = .ok (x, xs) ↔
      ∃ last published written, convert E startBlock rest = .ok (last, published) ∧
        addNativeBlock E (advance E (E.evmNum b - last.header.number) last) b
          = .ok (x, written) ∧
        xs = (grow E (E.evmNum b - last.header.number) last).tail ++ published := by
  obtain ⟨parent, older, rfl⟩ := List.exists_cons_of_ne_nil hne
  rw [convert]
  constructor
  · intro h
    obtain ⟨⟨last, published⟩, hrest, h⟩ := bind_ok h
    obtain ⟨⟨curr, written⟩, hadd, h⟩ := bind_ok h
    obtain ⟨rfl, rfl⟩ := Prod.mk.inj (Except.ok.inj h)
    exact ⟨last, published, written, hrest, hadd, rfl⟩
  · rintro ⟨last, published, written, hrest, hadd, rfl⟩
    rw [hrest]
    show (addNativeBlock E _ b >>= _) = _
    rw [hadd]
    rfl

/-- The part of a well-formed branch from one of its blocks on. -/
theorem NativeChain.Wf.suffix {startBlock : Block Tx}
    {c : NativeChain} (h : c.Wf startBlock) {kept : List NativeBlock}
    (hne : kept ≠ []) (hsuf : kept <:+ c.branch) (lib : Option Nat) :
    NativeChain.Wf startBlock ⟨kept, lib⟩ where
  linked := List.IsChain.suffix h.linked hsuf
  bottom := by
    obtain ⟨newer, hnewer⟩ := hsuf
    have hbottom := h.bottom
    rw [← hnewer, List.getLast?_append_of_ne_nil _ hne] at hbottom
    exact hbottom
  ids := List.Pairwise.sublist hsuf.sublist h.ids

section Convert

variable {E : Env Tx} {startBlock : Block Tx}

/-- What `convert` makes of a branch. -/
structure Converted (E : Env Tx) (startBlock : Block Tx)
    (branch : List NativeBlock) (last : Block Tx) (published : List (Block Tx)) :
    Prop where
  filled : Filled E startBlock branch (last :: published)
  number : ∀ nb ∈ branch.head?, last.header.number = E.evmNum nb
  bound : ∀ nb ∈ branch.head?, 1 < branch.length →
    last.header.prevRandao = nb.id ∧
      last.irreversible = decide (nb.blockNum ≤ nb.lib)

theorem convert_restored (hE : Started E startBlock) :
    Converted E startBlock [restoredNativeBlock startBlock]
      (generateNewEvmBlock E (setTransactionsRoot E startBlock))
      [setTransactionsRoot E startBlock] where
  filled := (coherent_init hE 0).filled.extend hE
  number := by
    intro nb hnb
    obtain rfl := Option.some.inj hnb
    rw [generateNewEvmBlock_number hE, evmNum_restored hE]
    rfl
  bound := by
    intro nb _ hlen
    exact absurd hlen (Nat.lt_irrefl 1)

/-- **The chain of a branch** holds the contents of its native blocks, and ends
    in the EVM block of the newest one. -/
theorem convert_ok (hE : Started E startBlock) :
    ∀ {branch : List NativeBlock} {x : Block Tx} {xs : List (Block Tx)},
      NativeChain.Wf startBlock ⟨branch, none⟩ →
      convert E startBlock branch = .ok (x, xs) →
      Converted E startBlock branch x xs := by
  intro branch
  induction branch with
  | nil => intro x xs hwf _; cases hwf.bottom
  | cons b rest ih =>
      intro x xs hwf h
      by_cases hne : rest = []
      · subst hne
        obtain rfl := Option.some.inj hwf.bottom
        obtain ⟨rfl, rfl⟩ := Prod.mk.inj (Except.ok.inj h)
        exact convert_restored hE
      · obtain ⟨last, published, written, hrest, hadd, rfl⟩ :=
          (convert_cons_ok hne).mp h
        have hc := ih (hwf.suffix hne (List.suffix_cons b rest) none) hrest
        obtain ⟨parent, older, rfl⟩ := List.exists_cons_of_ne_nil hne
        -- the chain so far, as the state of a plugin that drops nothing
        have hdate : ∀ nb ∈ parent :: older, nb.timestamp ≤ b.timestamp := by
          intro nb hnb
          have := (List.pairwise_cons.mp hwf.pairwise).1 nb hnb
          omega
        have hle : last.header.number ≤ E.evmNum b := by
          rw [hc.number parent rfl]
          exact evmNum_mono hE (hc.filled.dated parent List.mem_cons_self)
            (hdate parent List.mem_cons_self)
        have hgrow := grow_eq_advance E (E.evmNum b - last.header.number) last
        obtain ⟨hnum, hfilled⟩ := hc.filled.added hE
          (v := ⟨b :: parent :: older, last :: published, 0, [], []⟩)
          (fun e he => by obtain rfl := Option.some.inj he; exact hle)
          (hwf.restored_le List.mem_cons_self) hdate
          (extendEvmChain_eq hE (E.evmNum b - last.header.number) (E.evmNum b)
            ⟨b :: parent :: older, last :: published, 0, [], []⟩ last published
            rfl rfl (by omega))
          (show grow E (E.evmNum b - last.header.number) last ++ published
            = _ :: (_ ++ published) by
            conv_lhs => rw [hgrow]
            rfl) hadd
        refine ⟨hfilled, ?_, ?_⟩
        · intro nb hnb
          obtain rfl := Option.some.inj hnb
          exact hnum
        · intro nb hnb _
          obtain rfl := Option.some.inj hnb
          obtain ⟨txs, -, hx, -⟩ := addNativeBlock_ok hE.lawful hadd
          rw [hx]
          exact ⟨rfl, rfl⟩

/-! ## One more native block -/

theorem setTransactionsRoot_of_rootless {e f : Block Tx}
    (h : rootless e = rootless f) :
    setTransactionsRoot E e = setTransactionsRoot E f := by
  show setTransactionsRoot E (rootless e) = setTransactionsRoot E (rootless f)
  rw [h]

theorem number_of_unbound {e f : Block Tx} (h : unbound e = unbound f) :
    e.header.number = f.header.number := by
  rw [eq_rebound_of_unbound h]
  rfl

/-- The EVM blocks `evms` serve as well as the chain of the branch for a native
    block in EVM block `k`: the publishing loop ends in the same block, up to root
    and upper bound, and leaves a part of the same chain, up to roots. -/
structure Serves (E : Env Tx) (k : Nat) (e : Block Tx) (es : List (Block Tx))
    (last : Block Tx) (published : List (Block Tx)) : Prop where
  reaches : unbound (advance E (k - e.header.number) e)
    = unbound (advance E (k - last.header.number) last)
  leaves : ((grow E (k - e.header.number) e).tail ++ es).map rootless
    <+: ((grow E (k - last.header.number) last).tail ++ published).map rootless

/-- A block that waits for more transactions of its own second may have another
    upper bound. -/
theorem serves_of_unbound {k : Nat} {e last : Block Tx}
    {es published : List (Block Tx)} (he : unbound e = unbound last)
    (hk : k ≤ last.header.number)
    (hes : es.map rootless <+: published.map rootless) :
    Serves E k e es last published := by
  have hnum := number_of_unbound he
  have h₁ : k - e.header.number = 0 := by omega
  have h₂ : k - last.header.number = 0 := by omega
  constructor
  · rw [h₁, h₂]
    exact he
  · rw [h₁, h₂]
    exact hes

/-- Publishing computes the root anew. -/
theorem serves_of_rootless (k : Nat) {e last : Block Tx}
    {es published : List (Block Tx)} (he : rootless e = rootless last)
    (hes : es.map rootless <+: published.map rootless) :
    Serves E k e es last published := by
  have hunbound := unbound_of_rootless he
  have hnum := number_of_unbound hunbound
  have hroot : setTransactionsRoot E e = setTransactionsRoot E last :=
    setTransactionsRoot_of_rootless he
  constructor
  · rw [hnum]
    cases k - last.header.number with
    | zero => exact hunbound
    | succ n => rw [advance, advance, hroot]
  · rw [hnum]
    cases k - last.header.number with
    | zero => exact hes
    | succ n =>
        rw [grow_succ_tail, grow_succ_tail, hroot]
        simp only [List.map_append, List.append_assoc,
          List.prefix_append_right_inj]
        exact hes

/-- The start block alone serves for the block it opens. -/
theorem serves_start (hE : Started E startBlock) {k : Nat}
    (hk : startBlock.header.number < k) :
    Serves E k startBlock []
      (generateNewEvmBlock E (setTransactionsRoot E startBlock))
      [setTransactionsRoot E startBlock] := by
  have hnum : (generateNewEvmBlock E (setTransactionsRoot E startBlock)).header.number
      = startBlock.header.number + 1 := generateNewEvmBlock_number hE _
  obtain ⟨n, hn⟩ := Nat.exists_eq_add_of_lt hk
  have h₁ : k - startBlock.header.number = n + 1 := by omega
  have h₂ : k - (startBlock.header.number + 1) = n := by omega
  constructor
  · rw [hnum, h₁, h₂]
    rfl
  · rw [hnum, h₁, h₂, grow_succ_tail]
    simp only [List.append_nil, List.prefix_rfl]

/-- What a state holds of the chain of a branch. -/
def Tracks (E : Env Tx) (startBlock : Block Tx) (branch : List NativeBlock)
    (evms : List (Block Tx)) : Prop :=
  (branch = [restoredNativeBlock startBlock] ∧ evms = [startBlock]) ∨
  ∃ last published, convert E startBlock branch = .ok (last, published) ∧
    evms.map rootless <+: (last :: published).map rootless

/-- A state that holds the newest part of the chain serves for any later native
    block. -/
theorem Tracks.serves (hE : Started E startBlock) {branch : List NativeBlock}
    {e : Block Tx} {es : List (Block Tx)} {k : Nat}
    (h : Tracks E startBlock branch (e :: es)) (hk : startBlock.header.number < k) :
    ∃ last published, convert E startBlock branch = .ok (last, published) ∧
      Serves E k e es last published := by
  rcases h with ⟨rfl, hevm⟩ | ⟨last, published, hconv, hpre⟩
  · obtain ⟨rfl, rfl⟩ := List.cons.inj hevm
    exact ⟨_, _, rfl, serves_start hE hk⟩
  · rw [List.map_cons, List.map_cons, List.cons_prefix_cons] at hpre
    exact ⟨last, published, hconv, serves_of_rootless k hpre.1 hpre.2⟩

section Append

variable {t s' : State Tx} {b : NativeBlock} {rest : List NativeBlock}
  {e last : Block Tx} {es published : List (Block Tx)}

/-- **Forward**: what the branch converts to, the handler accepts. -/
theorem Serves.append_total (hE : Started E startBlock)
    (h : Serves E (E.evmNum b) e es last published) (hne : rest ≠ [])
    (hrest : convert E startBlock rest = .ok (last, published))
    (ht : Coherent E startBlock t)
    (hdate : ∀ back ∈ t.nativeBlocks.head?, back.timestamp ≤ b.timestamp)
    (hevm : t.evmBlocks = e :: es) {x : Block Tx} {xs : List (Block Tx)}
    (hconv : convert E startBlock (b :: rest) = .ok (x, xs)) :
    ∃ s', appendNativeBlock E t b = .ok s' ∧
      s'.evmBlocks.map rootless <+: (x :: xs).map rootless := by
  obtain ⟨last', published', written, hrest', hadd, rfl⟩ :=
    (convert_cons_ok hne).mp hconv
  obtain ⟨rfl, rfl⟩ := Prod.mk.inj (Except.ok.inj (hrest.symm.trans hrest'))
  obtain ⟨curr, hcurr, hroot⟩ := addNativeBlock_of_unbound h.reaches hadd
  have he : t.evmBlocks.head? = some e := by rw [hevm]; rfl
  obtain ⟨s', hs'⟩ := ht.append_total hE hdate he hcurr
  obtain ⟨curr', written', hcurr', hadv⟩ := advanced_of_append hE he hs'
  obtain ⟨rfl, -⟩ := Prod.mk.inj (Except.ok.inj (hcurr.symm.trans hcurr'))
  refine ⟨s', hs', ((hadv.evms es hevm).map rootless).trans ?_⟩
  rw [List.map_cons, List.map_cons, hroot, List.cons_prefix_cons]
  exact ⟨rfl, h.leaves⟩

/-- **Backward**: what the handler accepts, the branch converts to. -/
theorem Serves.convert_total (hE : Started E startBlock)
    (h : Serves E (E.evmNum b) e es last published) (hne : rest ≠ [])
    (hrest : convert E startBlock rest = .ok (last, published))
    (hevm : t.evmBlocks = e :: es) (happ : appendNativeBlock E t b = .ok s') :
    Tracks E startBlock (b :: rest) s'.evmBlocks := by
  have he : t.evmBlocks.head? = some e := by rw [hevm]; rfl
  obtain ⟨curr, written, hcurr, hadv⟩ := advanced_of_append hE he happ
  obtain ⟨x, hadd, hroot⟩ := addNativeBlock_of_unbound h.reaches.symm hcurr
  refine Or.inr ⟨x, _, (convert_cons_ok hne).mpr
    ⟨last, published, written, hrest, hadd, rfl⟩,
    ((hadv.evms es hevm).map rootless).trans ?_⟩
  rw [List.map_cons, List.map_cons, hroot, List.cons_prefix_cons]
  exact ⟨rfl, h.leaves⟩

end Append

/-- A block dated no earlier than the last native block is dated as the native
    chain promises. -/
theorem Coherent.dated_of_later (hE : Started E startBlock) {s : State Tx}
    {b : NativeBlock} (h : Coherent E startBlock s) (hpos : 0 < b.timestamp)
    (hlater : ∀ back ∈ s.nativeBlocks.head?, back.timestamp ≤ b.timestamp) :
    Dated E s b := by
  obtain ⟨hall, hrestored⟩ := h.dated_after hlater
  exact ⟨Nat.le_trans hE.genesis_le hrestored, hpos, fun nb hnb _ => hall nb hnb⟩

/-- **A run over one branch** holds the newest part of its chain. -/
theorem feed_convert (hE : Started E startBlock) (evmLib₀ : Nat) :
    ∀ {branch : List NativeBlock} {t : State Tx},
      NativeChain.Wf startBlock ⟨branch, none⟩ →
      feed (nativeBlocksHandler E) (initialState startBlock evmLib₀)
        branch.reverse.tail = .ok t →
      Coherent E startBlock t ∧ t.nativeBlocks.head? = branch.head? ∧
        Tracks E startBlock branch t.evmBlocks := by
  intro branch
  induction branch with
  | nil => intro t hwf _; cases hwf.bottom
  | cons b rest ih =>
      intro t hwf h
      by_cases hne : rest = []
      · subst hne
        obtain rfl := Option.some.inj hwf.bottom
        obtain rfl := Except.ok.inj h
        exact ⟨coherent_init hE evmLib₀, rfl, Or.inl ⟨rfl, rfl⟩⟩
      · rw [List.reverse_cons, List.tail_append_of_ne_nil (by simpa using hne)] at h
        -- the run over the branch without its end, then one step forward
        obtain ⟨s, hs, hstep⟩ := feed_concat_ok.mp h
        have hwf' := hwf.suffix hne (List.suffix_cons b rest) none
        obtain ⟨hcoherent, hhead, htracks⟩ := ih hwf' hs
        obtain ⟨parent, older, rfl⟩ := List.exists_cons_of_ne_nil hne
        obtain ⟨hid, hnum, hlater, hpos⟩ := (List.isChain_cons_cons.mp hwf.linked).1
        have htop : OnTop s b := by
          intro back hback
          rw [hhead] at hback
          obtain rfl := Option.some.inj hback
          exact hid
        have hdated : Dated E s b := by
          refine hcoherent.dated_of_later hE hpos ?_
          intro back hback
          rw [hhead] at hback
          obtain rfl := Option.some.inj hback
          exact hlater
        have hdate := hdated.of_onTop htop
        rw [handler_of_onTop hdated htop] at hstep
        obtain ⟨hcoherent', hnewest⟩ := hcoherent.append hE hdate hstep
        refine ⟨hcoherent', hnewest, ?_⟩
        obtain ⟨e, es, hevm⟩ := List.exists_cons_of_ne_nil hcoherent.evms_ne
        rw [hevm] at htracks
        obtain ⟨last, published, hrest, hserves⟩ := htracks.serves hE
          (lt_evmNum hE (hwf.restored_le List.mem_cons_self))
        exact hserves.convert_total hE hne hrest hevm hstep

/-! ## Back to an earlier native block -/

/-- One native block on, the chain keeps what it had below its last block; that
    block itself takes the native block's transactions or is published. -/
structure Advances (E : Env Tx) (b : NativeBlock) (last : Block Tx)
    (front : List (Block Tx)) (last' : Block Tx) : Prop where
  number : last'.header.number = last.header.number
  above : ∀ z ∈ front, last.header.number < z.header.number
  cases : (E.evmNum b = last.header.number ∧
      ∃ written, addNativeBlock E last b = .ok (last', written)) ∨
    (last.header.number < E.evmNum b ∧ last' = setTransactionsRoot E last)

theorem convert_cons_split (hE : Started E startBlock) {b : NativeBlock}
    {rest : List NativeBlock} (hne : rest ≠ []) {x last : Block Tx}
    {xs published : List (Block Tx)}
    (hrest : convert E startBlock rest = .ok (last, published))
    (hle : last.header.number ≤ E.evmNum b)
    (h : convert E startBlock (b :: rest) = .ok (x, xs)) :
    ∃ front last', x :: xs = front ++ last' :: published ∧
      Advances E b last front last' := by
  obtain ⟨last₁, published₁, written, hrest₁, hadd, rfl⟩ :=
    (convert_cons_ok hne).mp h
  obtain ⟨rfl, rfl⟩ := Prod.mk.inj (Except.ok.inj (hrest.symm.trans hrest₁))
  obtain ⟨txs, -, hx, -⟩ := addNativeBlock_ok hE.lawful hadd
  have hnum : x.header.number
      = (advance E (E.evmNum b - last.header.number) last).header.number := by
    rw [hx]
    rfl
  rw [advance_number hE] at hnum
  cases hn : E.evmNum b - last.header.number with
  -- the native block goes into the last EVM block
  | zero =>
      rw [hn] at hadd hnum
      refine ⟨[], x, rfl, by omega, ?_, Or.inl ⟨by omega, written, hadd⟩⟩
      intro z hz
      cases hz
  -- the last EVM block is published before the native block is added
  | succ n =>
      have hopen : (generateNewEvmBlock E
          (setTransactionsRoot E last)).header.number = last.header.number + 1 :=
        generateNewEvmBlock_number hE _
      refine ⟨x :: (grow E n
          (generateNewEvmBlock E (setTransactionsRoot E last))).tail,
        setTransactionsRoot E last, ?_, rfl, ?_, Or.inr ⟨by omega, rfl⟩⟩
      · rw [grow_succ_tail]
        simp
      · intro z hz
        rcases List.mem_cons.mp hz with rfl | hz
        · omega
        · have := grow_tail_number hE n _ z hz
          omega

/-- `y` is `h` after the native blocks `added` went into it, up to root and
    upper bound: only its parameters and transactions have changed. -/
structure Grown (E : Env Tx) (h : Block Tx) (added : List NativeBlock)
    (y : Block Tx) : Prop where
  params : Params.of y = added.foldl (Params.afterNative E) (Params.of h)
  rest : unbound { (Params.of h).set y with transactions := h.transactions }
    = unbound h

theorem Grown.add (hE : Started E startBlock) {h y y' : Block Tx}
    {added : List NativeBlock} {b : NativeBlock}
    {written : List (Bytes32 × ConsensusParameters)} (hg : Grown E h added y)
    (hadd : addNativeBlock E y b = .ok (y', written)) :
    Grown E h (added ++ [b]) y' := by
  obtain ⟨txs, -, hy', -⟩ := addNativeBlock_ok hE.lawful hadd
  constructor
  · rw [List.foldl_concat, ← hg.params, hy']
    rfl
  · rw [← hg.rest, hy']
    rfl

/-- The native blocks of EVM block `k`, oldest first. -/
def nativesOf (E : Env Tx) (k : Nat) (natives : List NativeBlock) :
    List NativeBlock :=
  natives.reverse.filter (fun nb => E.evmNum nb = k)

theorem nativesOf_cons_of_eq {k : Nat} {nb : NativeBlock}
    (natives : List NativeBlock) (h : E.evmNum nb = k) :
    nativesOf E k (nb :: natives) = nativesOf E k natives ++ [nb] := by
  rw [nativesOf, List.reverse_cons, List.filter_append, ← nativesOf,
    List.filter_singleton]
  simp [h]

theorem nativesOf_cons_of_ne {k : Nat} {nb : NativeBlock}
    (natives : List NativeBlock) (h : E.evmNum nb ≠ k) :
    nativesOf E k (nb :: natives) = nativesOf E k natives := by
  rw [nativesOf, List.reverse_cons, List.filter_append, ← nativesOf,
    List.filter_singleton]
  simp [h]

/-- Where the EVM block of an earlier native block is in the chain of the
    branch, and what the newer native blocks have made of it. -/
structure Within (E : Env Tx) (newer : List NativeBlock) (h : Block Tx)
    (hs : List (Block Tx)) (chain front : List (Block Tx)) (y : Block Tx) :
    Prop where
  chain : chain = front ++ y :: hs
  number : y.header.number = h.header.number
  above : ∀ z ∈ front, h.header.number < z.header.number
  grown : Grown E h (nativesOf E h.header.number newer) y

/-- **The chain of a branch contains the chain of every earlier part of it**, up
    to what went into the EVM block that part ends in. -/
theorem convert_append (hE : Started E startBlock) {kept : List NativeBlock}
    (hkept : kept ≠ []) :
    ∀ {newer : List NativeBlock} {x : Block Tx} {xs : List (Block Tx)},
      NativeChain.Wf startBlock ⟨newer ++ kept, none⟩ →
      convert E startBlock (newer ++ kept) = .ok (x, xs) →
      ∃ h hs front y, convert E startBlock kept = .ok (h, hs) ∧
        Within E newer h hs (x :: xs) front y := by
  intro newer
  induction newer with
  | nil =>
      intro x xs _ hconv
      refine ⟨x, xs, [], x, hconv, rfl, rfl, ?_, rfl, rfl⟩
      intro z hz
      cases hz
  | cons b newer ih =>
      intro x xs hwf hconv
      have hne : newer ++ kept ≠ [] := List.append_ne_nil_of_right_ne_nil _ hkept
      have hwf' := hwf.suffix hne (List.suffix_cons b _) none
      obtain ⟨last, published, -, hrest, -, -⟩ := (convert_cons_ok hne).mp hconv
      obtain ⟨h, hs, front₀, y₀, hh, hin⟩ := ih hwf' hrest
      have hlast := convert_ok hE hwf' hrest
      have hle : last.header.number ≤ E.evmNum b := by
        obtain ⟨parent, older, hsplit⟩ := List.exists_cons_of_ne_nil hne
        have hmem : parent ∈ newer ++ kept := by
          rw [hsplit]
          exact List.mem_cons_self
        have hlater := (List.pairwise_cons.mp hwf.pairwise).1 parent hmem
        rw [hlast.number parent (by rw [hsplit]; rfl)]
        exact evmNum_mono hE (hwf'.restored_le hmem) (by omega)
      obtain ⟨front, last', hchain, hadv⟩ :=
        convert_cons_split hE hne hrest hle hconv
      have hlastnum : h.header.number ≤ last.header.number := by
        cases front₀ with
        | nil =>
            obtain ⟨rfl, -⟩ := List.cons.inj hin.chain
            exact Nat.le_of_eq hin.number.symm
        | cons z zs =>
            obtain ⟨rfl, -⟩ := List.cons.inj hin.chain
            exact Nat.le_of_lt (hin.above last List.mem_cons_self)
      refine ⟨h, hs, ?_⟩
      cases front₀ with
      | nil =>
          -- the kept part ended in the last EVM block
          obtain ⟨rfl, rfl⟩ := List.cons.inj hin.chain
          refine ⟨front, last', hh, hchain, hadv.number.trans hin.number, ?_, ?_⟩
          · intro z hz
            have := hadv.above z hz
            omega
          · rcases hadv.cases with ⟨heq, written, hadd⟩ | ⟨hlt, rfl⟩
            · rw [nativesOf_cons_of_eq newer (heq.trans hin.number)]
              exact hin.grown.add hE hadd
            · rw [nativesOf_cons_of_ne newer (by have := hin.number; omega)]
              exact ⟨hin.grown.params, hin.grown.rest⟩
      | cons z zs =>
          -- it ended before the last EVM block
          obtain ⟨rfl, rfl⟩ := List.cons.inj hin.chain
          have hz := hin.above last List.mem_cons_self
          refine ⟨front ++ last' :: zs, y₀, hh, by rw [hchain]; simp, hin.number,
            ?_, ?_⟩
          · intro z hmem
            rcases List.mem_append.mp hmem with hmem | hmem
            · have := hadv.above z hmem
              omega
            · rcases List.mem_cons.mp hmem with rfl | hmem
              · have := hadv.number
                omega
              · exact hin.above z (List.mem_cons_of_mem _ hmem)
          · rw [nativesOf_cons_of_ne newer (by omega)]
            exact hin.grown

end Convert

end BlockConversion
