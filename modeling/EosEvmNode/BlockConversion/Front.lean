import EosEvmNode.BlockConversion.Publishing

/-! # The front of the EVM blocks

    Only the removal of irreversible blocks pops from the front, and it stops both
    lists at the same number.  `FrontReached` says that no cached native block lies
    below the front EVM block: popping the EVM blocks above a cached native block
    then leaves one, so a rollback never looks at the back of an empty list. -/

namespace BlockConversion

open Channels Silkworm Engine Runs

variable {Tx : Type}

/-! ## Its number -/

/-- The number of the front EVM block, the last of the list. -/
def frontNumber (evms : List (Block Tx)) : Option Nat :=
  (evms.map (fun e => e.header.number)).getLast?

theorem frontNumber_eq_some {evms : List (Block Tx)} {e : Block Tx}
    (h : evms.getLast? = some e) : frontNumber evms = some e.header.number := by
  rw [frontNumber, List.getLast?_map, h]
  rfl

/-- Only the numbers count. -/
theorem frontNumber_replace_head {e e' : Block Tx} (es : List (Block Tx))
    (h : e'.header.number = e.header.number) :
    frontNumber (e' :: es) = frontNumber (e :: es) := by
  rw [frontNumber, frontNumber, List.map_cons, List.map_cons, h]

theorem frontNumber_cons (e e' : Block Tx) (es : List (Block Tx)) :
    frontNumber (e :: e' :: es) = frontNumber (e' :: es) := by
  rw [frontNumber, frontNumber, List.map_cons, List.map_cons,
    List.getLast?_cons_cons]

/-- Popping from the back leaves the front alone. -/
theorem frontNumber_suffix {evms es : List (Block Tx)} {e : Block Tx}
    (h : e :: es <:+ evms) : frontNumber (e :: es) = frontNumber evms := by
  obtain ⟨newer, rfl⟩ := h
  rw [frontNumber, frontNumber, List.map_append,
    List.getLast?_append_of_ne_nil _ (by simp)]

/-- No EVM block is numbered below the front. -/
theorem Consecutive.le_of_frontNumber {evms : List (Block Tx)} (h : Consecutive evms)
    {low : Nat} (hlow : frontNumber evms = some low) :
    ∀ e ∈ evms, low ≤ e.header.number := by
  intro e he
  have hlast := List.getLast?_eq_getLast_of_ne_nil (List.ne_nil_of_mem he)
  have hnum := Option.some.inj ((frontNumber_eq_some hlast).symm.trans hlow)
  rw [← hnum]
  exact h.front_le _ hlast e he

section Front

variable {E : Env Tx} {startBlock : Block Tx} {s s' t : State Tx}
  {b f : NativeBlock}

theorem RolledBack.frontNumber_eq {back : NativeBlock} {older : List NativeBlock}
    {e : Block Tx} {es : List (Block Tx)} {txs : List Tx}
    (hr : RolledBack E s f t back older e es txs) :
    frontNumber t.evmBlocks = frontNumber s.evmBlocks := by
  rw [hr.result, ← frontNumber_suffix (removeForkedEvmBlocks_suffix hr.evms)]
  exact frontNumber_replace_head es rfl

theorem LinkedTo.frontNumber_eq (hlink : LinkedTo E s b t) :
    frontNumber t.evmBlocks = frontNumber s.evmBlocks := by
  rcases hlink with ⟨rfl, -⟩ | ⟨f, -, hroll⟩
  · rfl
  · obtain ⟨back, older, e, es, txs, hr⟩ := rollback_ok hroll
    exact hr.frontNumber_eq

/-- Neither the publishing loop nor the received block touches the front. -/
theorem Appended.frontNumber_eq (hE : Started E startBlock) {u : State Tx}
    {curr curr' : Block Tx} {older : List (Block Tx)}
    {written : List (Bytes32 × ConsensusParameters)}
    (ha : Appended E t b s' u curr older curr' written) :
    frontNumber (curr' :: older) = frontNumber t.evmBlocks := by
  have hloop : frontNumber u.evmBlocks = frontNumber t.evmBlocks :=
    (extendEvmChain_invariant
      (P := fun v => frontNumber v.evmBlocks = frontNumber t.evmBlocks)
      (fun v last rest hv _ hP => by
        rw [hv] at hP
        show frontNumber (_ :: setTransactionsRoot E last :: rest) = _
        rw [frontNumber_cons, ← hP]
        exact frontNumber_replace_head rest rfl)
      _ { t with nativeBlocks := b :: t.nativeBlocks } u rfl ha.extended).1
  obtain ⟨txs, -, hcurr', -⟩ := addNativeBlock_ok hE.lawful ha.added
  rw [← hloop, ha.evms, hcurr']
  exact frontNumber_replace_head older rfl

/-- Pruning moves the front to the EVM LIB at most. -/
theorem Pruned.frontNumber_le {it : NativeBlock} {oldNatives : List NativeBlock}
    {oldEvms : List (Block Tx)} (hp : Pruned E s s' it oldNatives oldEvms)
    (hcons : Consecutive s.evmBlocks) :
    frontNumber s'.evmBlocks = frontNumber s.evmBlocks ∨
      ∀ k ∈ frontNumber s'.evmBlocks, k ≤ evmLibOf E it := by
  cases oldEvms with
  | nil =>
      have hevms := hp.evms
      rw [List.append_nil] at hevms
      exact Or.inl (by rw [hevms])
  | cons x rest =>
      refine Or.inr ?_
      intro k hk
      have hlast := List.getLast?_eq_getLast_of_ne_nil hp.evms_ne
      rw [frontNumber_eq_some hlast] at hk
      obtain rfl := Option.some.inj hk
      rw [hp.evms, Consecutive, List.isChain_append] at hcons
      have hlink := hcons.2.2 _ hlast x rfl
      have hbelow := hp.evms_below x List.mem_cons_self
      omega

/-! ## No native block below it -/

/-- No native block lies below the front EVM block. -/
def FrontReached (E : Env Tx) (natives : List NativeBlock)
    (evms : List (Block Tx)) : Prop :=
  ∀ k ∈ frontNumber evms, ∀ nb ∈ natives, k ≤ E.evmNum nb

section Reached

variable {natives : List NativeBlock} {evms : List (Block Tx)}

/-- **Popping stops**: above a cached native block not every EVM block is
    popped. -/
theorem FrontReached.popped (h : FrontReached E natives evms) (hne : evms ≠ [])
    (hf : f ∈ natives) : ∃ e es, removeForkedEvmBlocks E f evms = e :: es := by
  refine List.exists_cons_of_ne_nil ?_
  intro hnil
  rw [removeForkedEvmBlocks, List.dropWhile_eq_nil_iff] at hnil
  have hlast := List.getLast?_eq_getLast_of_ne_nil hne
  have hle := h _ (frontNumber_eq_some hlast) f hf
  have hlt := hnil _ (List.mem_of_getLast? hlast)
  simp only [decide_eq_true_eq] at hlt
  omega

theorem FrontReached.mono (h : FrontReached E natives evms)
    {kept : List NativeBlock} {evms' : List (Block Tx)}
    (hsub : ∀ nb ∈ kept, nb ∈ natives)
    (hfront : frontNumber evms' = frontNumber evms) : FrontReached E kept evms' := by
  intro k hk nb hnb
  exact h k (hfront ▸ hk) nb (hsub nb hnb)

/-- The received block lies in the last EVM block, and so not below the front. -/
theorem FrontReached.add (h : FrontReached E natives evms) {curr : Block Tx}
    {older : List (Block Tx)} (hfront : frontNumber (curr :: older) = frontNumber evms)
    (hcons : Consecutive (curr :: older)) (hnum : curr.header.number = E.evmNum b) :
    FrontReached E (b :: natives) (curr :: older) := by
  intro k hk nb hnb
  rcases List.mem_cons.mp hnb with rfl | hmem
  · rw [← hnum]
    exact hcons.le_of_frontNumber hk curr List.mem_cons_self
  · exact h k (hfront ▸ hk) nb hmem

end Reached

theorem RolledBack.frontReached {back : NativeBlock} {older : List NativeBlock}
    {e : Block Tx} {es : List (Block Tx)} {txs : List Tx}
    (hr : RolledBack E s f t back older e es txs)
    (h : FrontReached E s.nativeBlocks s.evmBlocks) :
    FrontReached E t.nativeBlocks t.evmBlocks := by
  refine h.mono ?_ hr.frontNumber_eq
  intro nb hnb
  rw [hr.result] at hnb
  exact (List.dropWhile_suffix _).subset (hr.natives ▸ hnb)

/-- Native blocks at the front bound the ones behind them. -/
theorem le_of_front {natives : List NativeBlock} {k : Nat}
    (hsorted : natives.Pairwise (fun x y => E.evmNum y ≤ E.evmNum x))
    (hfront : ∀ nb ∈ natives.getLast?, k ≤ E.evmNum nb) :
    ∀ nb ∈ natives, k ≤ E.evmNum nb := by
  intro nb hnb
  have hlast := List.getLast?_eq_getLast_of_ne_nil (List.ne_nil_of_mem hnb)
  have hk := hfront _ hlast
  obtain ⟨newer, hsplit⟩ := List.getLast?_eq_some_iff.mp hlast
  rw [hsplit] at hnb hsorted
  rcases List.mem_append.mp hnb with hmem | hmem
  · exact Nat.le_trans hk ((List.pairwise_append.mp hsorted).2.2 nb hmem _
      (List.mem_singleton_self _))
  · rw [List.mem_singleton.mp hmem]
    exact hk

/-- Both lists are pruned down to the EVM LIB, the native blocks in order of their
    EVM blocks. -/
theorem FrontReached.prune {lib : Nat} (h : FrontReached E s.nativeBlocks s.evmBlocks)
    (hcons : Consecutive s.evmBlocks)
    (hsorted : s.nativeBlocks.Pairwise (fun x y => E.evmNum y ≤ E.evmNum x))
    (hprune : removeIrreversible E s lib = .ok s') :
    FrontReached E s'.nativeBlocks s'.evmBlocks := by
  rcases removeIrreversible_ok hprune with
    ⟨-, rfl⟩ | ⟨it, oldNatives, oldEvms, -, hp⟩
  · exact h
  · rcases hp.frontNumber_le hcons with hsame | hfront
    · refine h.mono ?_ hsame
      intro nb hnb
      rw [hp.natives]
      exact List.mem_append_left _ hnb
    · -- the front native block lies at the EVM LIB or above, the others above it
      intro k hk nb hnb
      rw [hp.natives, List.pairwise_append] at hsorted
      exact Nat.le_trans (hfront k hk) (le_of_front hsorted.1 hp.natives_front nb hnb)

end Front

end BlockConversion
