import EosEvmNode.BlockConversion.Contents

/-! # No container is read when it is empty

    `Failure.undefined` stands for `front()` or `back()` on an empty container:
    in the rollback, the publishing loop and the removal of irreversible blocks.
    On a coherent state none of these happens, whatever dated block arrives. -/

namespace BlockConversion

open Channels Silkworm Engine Runs

variable {Tx : Type}

/-! ## Failures of the parts -/

/-- What can go wrong when a block is added to its EVM block. -/
def additionFailures : List Failure :=
  [.badPayload, .assertion, .badVariantAccess,
    .runtimeError "new config comes in the middle of an evm block",
    .runtimeError "tx_version < block_version",
    .runtimeError "tx_version > block_version",
    .runtimeError "curr_block_prices != tx_gas_prices",
    .runtimeError "Failed to decode transaction",
    .runtimeError "curr.base_fee_per_gas != tx_base_fee"]

/-- What can go wrong when a fork is rolled back. -/
def rollbackFailures : List Failure :=
  [.undefined, .badPayload, .runtimeError "Unable to remove transaction",
    .runtimeError "Unable to remove transactions",
    .runtimeError "Unable to set upper bound"]

/-- A branch that throws one of some failures does not throw another one. -/
theorem throw_ne {α : Type} {failures : List Failure} {err what : Failure}
    (herr : err ∉ failures) (hwhat : what ∈ failures) :
    (Except.error what : Except Failure α) ≠ .error err := by
  intro h
  rw [← Except.error.inj h] at herr
  exact herr hwhat

theorem deserializeTx_ne (E : Env Tx) (na : NativeAction) {err : Failure}
    (hne : err ≠ .badPayload) : deserializeTx E na ≠ .error err := by
  have hthrow : (Except.error .badPayload : Except Failure EvmTx) ≠ .error err :=
    fun h => hne (Except.error.inj h).symm
  rw [deserializeTx]
  split
  · split
    · rintro ⟨⟩
    · exact hthrow
  · split
    · rintro ⟨⟩
    · exact hthrow

section Failures

variable {err : Failure} (herr : err ∉ additionFailures)
include herr

theorem applyNewConfig_ne (E : Env Tx) (curr : Block Tx) (b : NativeBlock) :
    applyNewConfig E curr b ≠ .error err := by
  unfold applyNewConfig
  split
  · rintro ⟨⟩
  · split
    · exact throw_ne herr (by simp [additionFailures])
    · refine bind_ne_error ?_ (fun _ _ h => by cases h)
      rw [deserializeConfig]
      split
      · rintro ⟨⟩
      · exact throw_ne herr (by simp [additionFailures])

theorem applyVersion_ne (E : Env Tx) (curr : Block Tx) (v : UInt64)
    (dtx : EvmTx) : applyVersion E curr v dtx ≠ .error err := by
  unfold applyVersion
  simp only
  split
  · exact throw_ne herr (by simp [additionFailures])
  · split
    · split
      · rintro ⟨⟩
      · exact throw_ne herr (by simp [additionFailures])
    · rintro ⟨⟩

theorem applyGasPrices_ne (E : Env Tx) (curr : Block Tx) (v : UInt64)
    (dtx : EvmTx) : applyGasPrices E curr v dtx ≠ .error err := by
  unfold applyGasPrices
  split
  · split
    · exact throw_ne herr (by simp [additionFailures])
    · simp only
      split
      · rintro ⟨⟩
      · split
        · split
          · rintro ⟨⟩
          · exact throw_ne herr (by simp [additionFailures])
        · rintro ⟨⟩
  · rintro ⟨⟩

theorem applyBaseFee_ne (curr : Block Tx) (v : UInt64) (dtx : EvmTx) :
    applyBaseFee curr v dtx ≠ .error err := by
  unfold applyBaseFee
  split
  · split
    · exact throw_ne herr (by simp [additionFailures])
    · simp only
      split
      · rintro ⟨⟩
      · split
        · split
          · rintro ⟨⟩
          · exact throw_ne herr (by simp [additionFailures])
        · rintro ⟨⟩
  · rintro ⟨⟩

theorem addTransaction_ne (E : Env Tx) (c : Block Tx × UInt64)
    (act : NativeAction) : addTransaction E c act ≠ .error err := by
  obtain ⟨curr, v⟩ := c
  have hpayload : err ≠ .badPayload := by
    rintro rfl
    exact herr (by simp [additionFailures])
  refine bind_ne_error (deserializeTx_ne E act hpayload) ?_
  intro dtx _
  refine bind_ne_error (applyVersion_ne herr E curr v dtx) ?_
  rintro ⟨c₁, v₁⟩ _
  refine bind_ne_error (applyGasPrices_ne herr E c₁ v₁ dtx) ?_
  intro c₂ _
  cases htx : E.libs.decodeTransaction dtx.rlpx with
  | none => exact throw_ne herr (by simp [additionFailures])
  | some tx =>
      refine bind_ne_error (applyBaseFee_ne herr c₂ v₁ dtx) ?_
      rintro _ _ ⟨⟩

/-- **Adding a block raises nothing else.** -/
theorem addNativeBlock_ne (E : Env Tx) (curr : Block Tx) (b : NativeBlock) :
    addNativeBlock E curr b ≠ .error err := by
  refine bind_ne_error (applyNewConfig_ne herr E curr b) ?_
  rintro ⟨c, written⟩ _
  refine bind_ne_error (foldlM_ne_error (addTransaction_ne herr E) b.actions _) ?_
  rintro _ _ ⟨⟩

end Failures

theorem undefined_not_addition : Failure.undefined ∉ additionFailures := by
  simp [additionFailures]

theorem extendEvmChain_ne (E : Env Tx) (evmNum : Nat) {err : Failure}
    (hundef : err ≠ .undefined) (hdiv : err ≠ .diverged) :
    ∀ (fuel : Nat) (s : State Tx), extendEvmChain E evmNum fuel s ≠ .error err := by
  intro fuel
  induction fuel with
  | zero =>
      intro s h
      unfold extendEvmChain at h
      split at h
      · exact hundef (Except.error.inj h).symm
      · split at h
        · exact hdiv (Except.error.inj h).symm
        · cases h
  | succ fuel ih =>
      intro s h
      unfold extendEvmChain at h
      split at h
      · exact hundef (Except.error.inj h).symm
      · split at h
        · exact ih _ h
        · cases h

theorem removeIrreversible_ne (E : Env Tx) (s : State Tx) (lib : Nat)
    {err : Failure} (hundef : err ≠ .undefined) :
    removeIrreversible E s lib ≠ .error err := by
  intro h
  unfold removeIrreversible at h
  split at h
  · cases h
  · simp only at h
    split at h
    · cases h
    · exact hundef (Except.error.inj h).symm

/-- The part after the link check looks for no fork and rolls nothing back. -/
theorem appendNativeBlock_ne (E : Env Tx) (s : State Tx) (b : NativeBlock)
    {err : Failure} (herr : err ∉ additionFailures) (hundef : err ≠ .undefined)
    (hdiv : err ≠ .diverged) : appendNativeBlock E s b ≠ .error err := by
  refine bind_ne_error (extendEvmChain_ne E _ hundef hdiv _ _) ?_
  intro u _
  cases u.evmBlocks with
  | nil => exact fun h => hundef (Except.error.inj h).symm
  | cons curr older =>
      refine bind_ne_error (addNativeBlock_ne herr E curr b) ?_
      rintro ⟨curr', written⟩ _
      exact removeIrreversible_ne E _ b.lib hundef

section Failures

variable {err : Failure} (herr : err ∉ rollbackFailures)
include herr

theorem removeTransactions_ne (E : Env Tx) :
    ∀ (acts : List NativeAction) (txs : List Tx),
      removeTransactions E acts txs ≠ .error err := by
  have hpayload : err ≠ .badPayload := by
    rintro rfl
    exact herr (by simp [rollbackFailures])
  intro acts
  induction acts with
  | nil => rintro _ ⟨⟩
  | cons act acts ih =>
      intro txs
      rw [removeTransactions]
      refine bind_ne_error (deserializeTx_ne E act hpayload) ?_
      intro dtx _
      cases txs.getLast? with
      | none => exact throw_ne herr (by simp [rollbackFailures])
      | some back =>
          simp only
          split
          · exact throw_ne herr (by simp [rollbackFailures])
          · exact ih _

theorem removeForkedNativeBlocks_ne (E : Env Tx) (f : NativeBlock) :
    ∀ (natives : List NativeBlock) (evms : List (Block Tx)),
      removeForkedNativeBlocks E f natives evms ≠ .error err := by
  intro natives
  induction natives with
  | nil => rintro _ ⟨⟩
  | cons nb older ih =>
      intro evms
      cases evms with
      | nil =>
          rw [removeForkedNativeBlocks]
          split
          · split
            · exact throw_ne herr (by simp [rollbackFailures])
            · exact ih _
          · rintro ⟨⟩
      | cons e es =>
          rw [removeForkedNativeBlocks]
          split
          · split
            · split
              · exact throw_ne herr (by simp [rollbackFailures])
              · refine bind_ne_error (removeTransactions_ne herr E _ _) ?_
                intro txs _
                exact ih _
            · exact ih _
          · rintro ⟨⟩

/-- **A rollback raises nothing else.** -/
theorem rollback_ne (E : Env Tx) (s : State Tx) (f : NativeBlock) :
    rollback E s f ≠ .error err := by
  refine bind_ne_error (removeForkedNativeBlocks_ne herr E f _ _) ?_
  rintro ⟨natives, evms⟩ _
  cases evms with
  | nil => exact throw_ne herr (by simp [rollbackFailures])
  | cons e es =>
      cases natives with
      | nil => exact throw_ne herr (by simp [rollbackFailures])
      | cons back older =>
          simp only
          split
          · exact throw_ne herr (by simp [rollbackFailures])
          · rintro ⟨⟩

end Failures

/-- **A cached parent is found**, whatever else goes wrong. -/
theorem linkNativeBlock_ne_lost {E : Env Tx} {s : State Tx} {b p : NativeBlock}
    (hp : p ∈ s.nativeBlocks) (hlink : p.id = b.prev) :
    linkNativeBlock E s b ≠ .error (.runtimeError "Unable to find fork block") := by
  rw [linkNativeBlock]
  split
  · rintro ⟨⟩
  · split
    · rintro ⟨⟩
    · split
      · rintro ⟨⟩
      · split
        · next hnone =>
            rw [findForkBlock, List.find?_eq_none] at hnone
            exact absurd hlink (by simpa using hnone p (List.mem_reverse.mpr hp))
        · next f _ =>
            refine bind_ne_error (rollback_ne (by simp [rollbackFailures]) E s f) ?_
            rintro _ _ ⟨⟩

/-- The fork point is cached, so the loop over native blocks does not pop all of
    them; the EVM blocks must not be popped up either. -/
theorem rollback_ne_undefined {E : Env Tx} {s : State Tx} {f : NativeBlock}
    (hf : f ∈ s.nativeBlocks) {e : Block Tx} {es : List (Block Tx)}
    (hevm : removeForkedEvmBlocks E f s.evmBlocks = e :: es)
    (h : removeForkedNativeBlocks E f s.nativeBlocks (e :: es)
      ≠ .error .undefined) : rollback E s f ≠ .error .undefined := by
  refine bind_ne_error (hevm ▸ h) ?_
  rintro ⟨natives, evms⟩ hrem hundef
  rw [hevm] at hrem
  obtain ⟨hnat, txs, rfl, -⟩ := removeForkedNativeBlocks_ok hrem
  cases natives with
  | nil =>
      -- the fork point itself is never popped
      have hnil := hnat.symm
      rw [List.dropWhile_eq_nil_iff] at hnil
      have := hnil f hf
      simp at this
  | cons back older =>
      by_cases hnum : E.evmNum back ≠ e.header.number
      · simp only [if_pos hnum] at hundef
        cases hundef
      · simp only [if_neg hnum] at hundef
        cases hundef

/-- The link check reads an empty container only while it rolls back. -/
theorem linkNativeBlock_ne_undefined {E : Env Tx} {s : State Tx}
    (h : ∀ f ∈ s.nativeBlocks, rollback E s f ≠ .error .undefined)
    (b : NativeBlock) : linkNativeBlock E s b ≠ .error .undefined := by
  rw [linkNativeBlock]
  split
  · rintro ⟨⟩
  · split
    · rintro ⟨⟩
    · split
      · rintro ⟨⟩
      · split
        · rintro ⟨⟩
        · next f hfork =>
            refine bind_ne_error (h f (findForkBlock_some hfork).1) ?_
            rintro _ _ ⟨⟩

/-- The part after the link check reads no empty container when the EVM chain ends
    at or below the EVM block of the received block, and the LIB entry lies there
    or below. -/
theorem appendNativeBlock_ne_undefined {E : Env Tx} {startBlock : Block Tx}
    (hE : Started E startBlock) {t : State Tx} {b : NativeBlock}
    {natives : List NativeBlock} (hne : t.evmBlocks ≠ [])
    (h : Filled E startBlock natives t.evmBlocks)
    (hle : ∀ e ∈ t.evmBlocks.head?, e.header.number ≤ E.evmNum b)
    (hlib : ∀ it, libEntry (b :: t.nativeBlocks) b.lib = some it →
      0 < E.evmNum it ∧ E.evmNum it ≤ E.evmNum b) :
    appendNativeBlock E t b ≠ .error .undefined := by
  obtain ⟨e, es, hevm⟩ := List.exists_cons_of_ne_nil hne
  have hext := extendEvmChain_eq hE (E.evmNum b - e.header.number) (E.evmNum b)
    { t with nativeBlocks := b :: t.nativeBlocks } e es hevm rfl (by omega)
  refine bind_ne_error (by rw [hext]; exact fun hu => by cases hu) ?_
  intro u hu
  have hnat : u.nativeBlocks = b :: t.nativeBlocks := (extendEvmChain_frame hu).1
  obtain ⟨curr, older, hcurr, hnum, -⟩ := Filled.extended hE
    (v := { t with nativeBlocks := b :: t.nativeBlocks }) h hle hu
  simp only [hcurr]
  refine bind_ne_error (addNativeBlock_ne undefined_not_addition E curr b) ?_
  rintro ⟨curr', written⟩ hadd
  obtain ⟨txs, -, hcurr', -⟩ := addNativeBlock_ok hE.lawful hadd
  have htotal : ∃ s', removeIrreversible E { u with
      evmBlocks := curr' :: older
      consensusParameters := written ++ u.consensusParameters } b.lib = .ok s' := by
    refine removeIrreversible_total ?_
    intro it hit
    rw [hnat] at hit
    obtain ⟨hpos, hitle⟩ := hlib it hit
    refine ⟨hpos, curr', List.mem_cons_self, ?_⟩
    rw [hcurr']
    exact hnum.symm ▸ hitle
  obtain ⟨s', hs'⟩ := htotal
  rw [hs']
  rintro ⟨⟩

/-! ## The handler on a coherent state -/

section Coherent

variable {E : Env Tx} {startBlock : Block Tx}

theorem Coherent.rollback_ne_undefined (hE : Started E startBlock) {s : State Tx}
    {f : NativeBlock} (h : Coherent E startBlock s) (hf : f ∈ s.nativeBlocks) :
    BlockConversion.rollback E s f ≠ .error .undefined := by
  obtain ⟨e, es, hevm⟩ := h.front_reached.popped h.evms_ne hf
  refine BlockConversion.rollback_ne_undefined hf hevm
    (removeForkedNativeBlocks_ne_undefined ?_)
  intro hnum
  have hsuf := removeForkedEvmBlocks_suffix hevm
  refine h.filled.contents e (hsuf.subset List.mem_cons_self) ?_
  rw [hnum]
  exact lt_evmNum hE (h.filled.dated f hf)

theorem Coherent.linkNativeBlock_ne_undefined (hE : Started E startBlock)
    {s : State Tx} (h : Coherent E startBlock s) (b : NativeBlock) :
    linkNativeBlock E s b ≠ .error .undefined :=
  BlockConversion.linkNativeBlock_ne_undefined
    (fun _ hf => h.rollback_ne_undefined hE hf) b

/-- The LIB entry's EVM block has been reached, so the two loops stop there. -/
theorem Coherent.prune_total (hE : Started E startBlock) {v : State Tx}
    {b : NativeBlock} {olderNatives : List NativeBlock} {curr : Block Tx}
    {older : List (Block Tx)} (lib : Nat)
    (hnat : v.nativeBlocks = b :: olderNatives)
    (hevm : v.evmBlocks = curr :: older)
    (hnum : curr.header.number = E.evmNum b)
    (hfilled : Filled E startBlock (b :: olderNatives) (curr :: older)) :
    ∃ s', removeIrreversible E v lib = .ok s' := by
  refine removeIrreversible_total ?_
  intro it hit
  have hmem : it ∈ b :: olderNatives := hnat ▸ libEntry_mem hit
  have hpos := lt_evmNum hE (hfilled.dated it hmem)
  refine ⟨by omega, curr, by rw [hevm]; exact List.mem_cons_self, ?_⟩
  rw [hnum]
  exact hfilled.evmNum_le_head hE it hmem

theorem Coherent.append_ne_undefined (hE : Started E startBlock) {t : State Tx}
    {b : NativeBlock} (h : Coherent E startBlock t)
    (hdate : ∀ back ∈ t.nativeBlocks.head?, back.timestamp ≤ b.timestamp) :
    appendNativeBlock E t b ≠ .error .undefined := by
  obtain ⟨hall, hrestored⟩ := h.dated_after hdate
  refine appendNativeBlock_ne_undefined hE h.evms_ne h.filled
    (h.head_le_evmNum hE hdate) ?_
  intro it hit
  rcases List.mem_cons.mp (libEntry_mem hit) with rfl | hmem
  · have := lt_evmNum hE hrestored
    exact ⟨by omega, Nat.le_refl _⟩
  · have := lt_evmNum hE (h.filled.dated it hmem)
    exact ⟨by omega, evmNum_mono hE (h.filled.dated it hmem) (hall it hmem)⟩

/-- **No call reads an empty container**: on a coherent state the handler may
    throw, but it does not run into undefined behaviour. -/
theorem Coherent.handler_ne_undefined (hE : Started E startBlock) {s : State Tx}
    {b : NativeBlock} (h : Coherent E startBlock s) (hb : Dated E s b) :
    nativeBlocksHandler E s b ≠ .error .undefined := by
  rw [nativeBlocksHandler, if_neg hb.not_before]
  refine bind_ne_error (h.linkNativeBlock_ne_undefined hE b) ?_
  intro r hr
  have hlinked : ∀ t, LinkedTo E s b t → appendNativeBlock E t b
      ≠ .error .undefined := by
    intro t hlink
    obtain ⟨ht, hsuf, hback⟩ := h.link hE hlink
    refine ht.append_ne_undefined hE ?_
    intro back hmem
    exact hb.increasing back (hsuf.subset (List.mem_of_head? hmem))
      (hback back hmem)
  rcases linkNativeBlock_ok hr with
    ⟨rfl, -⟩ | ⟨rfl, hback⟩ | ⟨f, t, hf, hroll, rfl⟩
  · rintro ⟨⟩
  · exact hlinked s (Or.inl ⟨rfl, hback⟩)
  · exact hlinked t (Or.inr ⟨f, hf, hroll⟩)

end Coherent

/-- **Exact contents**: the transactions of every EVM block above the start
    block are the decoded transactions of the cached native blocks of its
    second, in list order (`nativeBlocks` is kept newest first), and the next
    block never makes the handler read an empty container. -/
theorem evm_block_contents {X : Externals Tx} {db : ChainData Tx}
    {height : Option Nat} {startBlock : Block Tx} {E : Env Tx} {s₀ : State Tx}
    (hload : Loaded X db height startBlock E s₀) {bs : List NativeBlock}
    {s : State Tx} (hrun : Reach (nativeBlocksHandler E) (Dated E) s₀ bs s) :
    (∀ e ∈ s.evmBlocks, startBlock.header.number < e.header.number →
      e.transactions.map some
        = (s.nativeBlocks.reverse.filter
            (fun nb => E.evmNum nb = e.header.number)).flatMap
            (fun nb => nb.actions.map (decodedTx E))) ∧
    ∀ b, Dated E s b → nativeBlocksHandler E s b ≠ .error .undefined := by
  obtain ⟨evmLib₀, rfl⟩ := hload.initial
  have h := coherent_reach hload.started hrun
  refine ⟨?_, fun b hb => h.handler_ne_undefined hload.started hb⟩
  intro e he hlt
  rw [h.filled.contents e he hlt, contents_eq_flatMap]

theorem evm_block_contents_plainFork :
    ∃ s, Reach (nativeBlocksHandler plainEnv) (Dated plainEnv)
        (initialState plainGenesis 0) plainFork s ∧
      ∀ b, Dated plainEnv s b →
        nativeBlocksHandler plainEnv s b ≠ .error .undefined := by
  have hcheck : checkRun (nativeBlocksHandler plainEnv) (Dated plainEnv)
      (initialState plainGenesis 0) plainFork = true := by decide +kernel
  obtain ⟨s, hs⟩ := exists_reach hcheck
  exact ⟨s, hs, (evm_block_contents (plainEnv_loaded 0) hs).2⟩

end BlockConversion
