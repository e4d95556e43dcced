import EosEvmNode.BlockConversion.Model

/-! # What each phase of the handler can do

    One specification lemma for each definition of the model: what a successful
    call has computed.  The invariants of the later modules are derived from
    these and never unfold the phases themselves. -/

namespace BlockConversion

open Channels Silkworm Engine Runs

variable {Tx : Type}

/-! ## Decoded contents -/

/-- The transaction an action carries, if its payload can be decoded. -/
def decodedTx (E : Env Tx) (act : NativeAction) : Option Tx :=
  match deserializeTx E act with
  | .ok dtx => E.libs.decodeTransaction dtx.rlpx
  | .error _ => none

/-- What the native blocks, newest first, put into EVM block `k`. -/
def contents (E : Env Tx) (k : Nat) : List NativeBlock → List (Option Tx)
  | [] => []
  | nb :: older =>
      contents E k older ++
        (if E.evmNum nb = k then nb.actions.map (decodedTx E) else [])

@[simp] theorem contents_nil (E : Env Tx) (k : Nat) :
    contents E k [] = [] := rfl

theorem contents_cons_of_eq {E : Env Tx} {k : Nat} {nb : NativeBlock}
    (older : List NativeBlock) (h : E.evmNum nb = k) :
    contents E k (nb :: older)
      = contents E k older ++ nb.actions.map (decodedTx E) := by
  rw [contents, if_pos h]

theorem contents_cons_of_ne {E : Env Tx} {k : Nat} {nb : NativeBlock}
    (older : List NativeBlock) (h : E.evmNum nb ≠ k) :
    contents E k (nb :: older) = contents E k older := by
  rw [contents, if_neg h, List.append_nil]

theorem contents_cons_of_actions_nil {E : Env Tx} {k : Nat} {nb : NativeBlock}
    (older : List NativeBlock) (h : nb.actions = []) :
    contents E k (nb :: older) = contents E k older := by
  by_cases hk : E.evmNum nb = k
  · rw [contents_cons_of_eq older hk, h, List.map_nil, List.append_nil]
  · exact contents_cons_of_ne older hk

/-- In list order: the contents of an EVM block are the decoded transactions of
    the native blocks that map to it. -/
theorem contents_eq_flatMap (E : Env Tx) (k : Nat) (natives : List NativeBlock) :
    contents E k natives
      = (natives.reverse.filter (fun nb => E.evmNum nb = k)).flatMap
          (fun nb => nb.actions.map (decodedTx E)) := by
  induction natives with
  | nil => rfl
  | cons nb older ih =>
      rw [List.reverse_cons, List.filter_append, List.flatMap_append, ← ih]
      by_cases hk : E.evmNum nb = k
      · rw [contents_cons_of_eq older hk]
        simp [hk]
      · rw [contents_cons_of_ne older hk]
        simp [hk]

theorem contents_append (E : Env Tx) (k : Nat) (newer older : List NativeBlock) :
    contents E k (newer ++ older)
      = contents E k older ++ contents E k newer := by
  induction newer with
  | nil => rw [List.nil_append, contents_nil, List.append_nil]
  | cons nb newer ih =>
      rw [List.cons_append, contents, contents, ih, List.append_assoc]

/-- Native blocks without actions in EVM block `k` leave it empty. -/
theorem contents_eq_nil {E : Env Tx} {k : Nat} {natives : List NativeBlock}
    (h : ∀ nb ∈ natives, E.evmNum nb = k → nb.actions = []) :
    contents E k natives = [] := by
  induction natives with
  | nil => rfl
  | cons nb older ih =>
      have hrest := ih (fun x hx => h x (List.mem_cons_of_mem _ hx))
      by_cases hk : E.evmNum nb = k
      · rw [contents_cons_of_eq older hk, hrest, h nb List.mem_cons_self hk]
        rfl
      · rw [contents_cons_of_ne older hk, hrest]

theorem mem_contents {E : Env Tx} {k : Nat} {natives : List NativeBlock}
    {nb : NativeBlock} {act : NativeAction} (hnb : nb ∈ natives)
    (hk : E.evmNum nb = k) (hact : act ∈ nb.actions) :
    decodedTx E act ∈ contents E k natives := by
  rw [contents_eq_flatMap, List.mem_flatMap]
  refine ⟨nb, ?_, List.mem_map_of_mem hact⟩
  rw [List.mem_filter]
  exact ⟨List.mem_reverse.mpr hnb, by simpa using hk⟩

/-! ## The rollback -/

/-- `removeTransactions` pops exactly one transaction for each action. -/
theorem removeTransactions_ok {E : Env Tx} :
    ∀ {acts : List NativeAction} {txs txs' : List Tx},
      removeTransactions E acts txs = .ok txs' →
      txs' <+: txs ∧ txs'.length + acts.length = txs.length := by
  intro acts
  induction acts with
  | nil =>
      intro txs txs' h
      have htxs : txs = txs' := Except.ok.inj h
      subst htxs
      exact ⟨List.prefix_refl _, rfl⟩
  | cons act acts ih =>
      intro txs txs' h
      obtain ⟨dtx, -, h⟩ := bind_ok h
      cases hlast : txs.getLast? with
      | none => rw [hlast] at h; cases h
      | some back =>
          rw [hlast] at h
          by_cases hid : E.libs.keccak256 dtx.rlpx
              ≠ E.libs.keccak256 (E.libs.encode back)
          · simp only [if_pos hid] at h
            cases h
          · simp only [if_neg hid] at h
            obtain ⟨hpre, hlen⟩ := ih h
            have hne : txs ≠ [] := by
              intro hnil
              rw [hnil] at hlast
              cases hlast
            have hpos : 0 < txs.length := List.length_pos_iff.mpr hne
            rw [List.length_dropLast] at hlen
            refine ⟨hpre.trans (List.dropLast_prefix txs), ?_⟩
            rw [List.length_cons]
            omega

/-- With enough transactions the rollback never calls `back()` on an empty
    vector. -/
theorem removeTransactions_ne_undefined {E : Env Tx} :
    ∀ {acts : List NativeAction} {txs : List Tx}, acts.length ≤ txs.length →
      removeTransactions E acts txs ≠ .error .undefined := by
  intro acts
  induction acts with
  | nil => intro txs _ h; cases h
  | cons act acts ih =>
      intro txs hlen h
      rw [List.length_cons] at hlen
      rw [removeTransactions] at h
      cases hd : deserializeTx E act with
      | error e =>
          rw [hd] at h
          have he : e = .undefined := Except.error.inj h
          subst he
          -- reading a payload fails as `badPayload` only
          rw [deserializeTx] at hd
          split at hd <;> split at hd <;> cases hd
      | ok dtx =>
          rw [hd] at h
          cases hlast : txs.getLast? with
          | none =>
              rw [List.getLast?_eq_none_iff.mp hlast, List.length_nil] at hlen
              omega
          | some back =>
              have h' : (if E.libs.keccak256 dtx.rlpx
                    ≠ E.libs.keccak256 (E.libs.encode back) then
                  (.error (.runtimeError "Unable to remove transaction") :
                    Except Failure (List Tx))
                else removeTransactions E acts txs.dropLast)
                  = .error .undefined := by
                rw [hlast] at h
                exact h
              by_cases hid : E.libs.keccak256 dtx.rlpx
                  ≠ E.libs.keccak256 (E.libs.encode back)
              · rw [if_pos hid] at h'
                cases h'
              · rw [if_neg hid] at h'
                refine ih ?_ h'
                rw [List.length_dropLast]
                omega

/-- Cutting as many elements off a list as the second part has leaves the first
    part. -/
theorem map_some_of_prefix {txs txs' : List Tx} {pre post : List (Option Tx)}
    {n : Nat} (hpre : txs' <+: txs) (hlen : txs'.length + n = txs.length)
    (hn : post.length = n) (h : txs.map some = pre ++ post) :
    txs'.map some = pre := by
  obtain ⟨cut, hcut⟩ := hpre
  have hcutlen : cut.length = n := by
    have := congrArg List.length hcut
    rw [List.length_append] at this
    omega
  rw [← hcut, List.map_append] at h
  have hlens : (cut.map some).length = post.length := by
    rw [List.length_map, hcutlen, hn]
  exact (List.append_inj' h hlens).1

theorem actions_eq_nil_of_transactions {nb : NativeBlock}
    (h : ¬ nb.transactions.length > 0) : nb.actions = [] := by
  have hnil : nb.transactions = [] := by
    rw [← List.length_eq_zero_iff]
    omega
  rw [NativeBlock.actions, hnil]
  rfl

/-- A native block that the loop takes nothing of out of EVM block `k` has put
    nothing into it. -/
theorem contents_cons_of_not_removed {E : Env Tx} {f nb : NativeBlock} {k : Nat}
    (older : List NativeBlock) (hf : k = E.evmNum f)
    (hrem : ¬ (nb.transactions.length > 0 ∧ E.evmNum nb = E.evmNum f)) :
    contents E k (nb :: older) = contents E k older := by
  by_cases hlen : nb.transactions.length > 0
  · refine contents_cons_of_ne older ?_
    intro hnum
    exact hrem ⟨hlen, hnum.trans hf⟩
  · exact contents_cons_of_actions_nil older (actions_eq_nil_of_transactions hlen)

/-- Taking the actions of the newest native block off leaves the contents of the
    older ones. -/
theorem contents_of_removed {E : Env Tx} {nb : NativeBlock}
    {older : List NativeBlock} {k : Nat} {txs txs' : List Tx}
    (hk : E.evmNum nb = k) (h : txs.map some = contents E k (nb :: older))
    (hrem : removeTransactions E nb.reverseActions txs = .ok txs') :
    txs'.map some = contents E k older := by
  obtain ⟨hpre, hlen⟩ := removeTransactions_ok hrem
  rw [contents_cons_of_eq older hk] at h
  refine map_some_of_prefix hpre hlen ?_ h
  rw [NativeBlock.reverseActions_eq, List.length_reverse, List.length_map]

theorem removeForkedEvmBlocks_suffix {E : Env Tx} {f : NativeBlock}
    {evms evms' : List (Block Tx)} (h : removeForkedEvmBlocks E f evms = evms') :
    evms' <:+ evms := by
  rw [← h, removeForkedEvmBlocks]
  exact List.dropWhile_suffix _

/-- The last EVM block that is left does not lie above the one of the fork point. -/
theorem removeForkedEvmBlocks_head_le {E : Env Tx} {f : NativeBlock}
    {evms es : List (Block Tx)} {e : Block Tx}
    (h : removeForkedEvmBlocks E f evms = e :: es) :
    e.header.number ≤ E.evmNum f := by
  have hhead := List.head?_dropWhile_not
    (fun e : Block Tx => decide (E.evmNum f < e.header.number)) evms
  rw [← removeForkedEvmBlocks, h] at hhead
  simpa using hhead

/-- The removal of native blocks stops at a block with the id it looks for. -/
theorem id_of_dropWhile {natives older : List NativeBlock} {back : NativeBlock}
    {id : Bytes32} (h : natives.dropWhile (fun nb => nb.id ≠ id) = back :: older) :
    back.id = id := by
  have hhead := List.head?_dropWhile_not
    (fun nb : NativeBlock => decide (nb.id ≠ id)) natives
  rw [h] at hhead
  simpa using hhead

/-- What the removal of forked native blocks leaves: the native blocks from the
    fork point on, and the head EVM block with its transaction list cut back to
    their contents. -/
theorem removeForkedNativeBlocks_ok {E : Env Tx} {f : NativeBlock} :
    ∀ {natives : List NativeBlock} {e : Block Tx} {es : List (Block Tx)}
      {natives' : List NativeBlock} {evms' : List (Block Tx)},
      removeForkedNativeBlocks E f natives (e :: es) = .ok (natives', evms') →
      natives' = natives.dropWhile (fun nb => nb.id ≠ f.id) ∧
      ∃ txs, evms' = { e with transactions := txs } :: es ∧
        txs <+: e.transactions ∧
        (e.header.number = E.evmNum f →
          e.transactions.map some = contents E e.header.number natives →
          txs.map some = contents E e.header.number natives') := by
  intro natives
  induction natives with
  | nil =>
      intro e es natives' evms' h
      have hp : ([], e :: es) = (natives', evms') := Except.ok.inj h
      obtain ⟨rfl, rfl⟩ := Prod.mk.inj hp
      exact ⟨rfl, e.transactions, rfl, List.prefix_refl _, fun _ hc => hc⟩
  | cons nb older ih =>
      intro e es natives' evms' h
      rw [removeForkedNativeBlocks] at h
      by_cases hid : nb.id ≠ f.id
      · rw [if_pos hid] at h
        rw [List.dropWhile_cons, if_pos (by simpa using hid)]
        by_cases hrem : nb.transactions.length > 0 ∧ E.evmNum nb = E.evmNum f
        · rw [if_pos hrem] at h
          by_cases hnum : E.evmNum nb ≠ e.header.number
          · simp only [if_pos hnum] at h
            cases h
          · simp only [if_neg hnum] at h
            obtain ⟨txs, htxs, h⟩ := bind_ok h
            obtain ⟨hpre, -⟩ := removeTransactions_ok htxs
            obtain ⟨hnat, txs', hevms, hpre', hcont⟩ := ih h
            refine ⟨hnat, txs', hevms, hpre'.trans hpre, ?_⟩
            intro hf hc
            exact hcont hf (contents_of_removed (not_not.mp hnum) hc htxs)
        · rw [if_neg hrem] at h
          obtain ⟨hnat, txs', hevms, hpre, hcont⟩ := ih h
          refine ⟨hnat, txs', hevms, hpre, ?_⟩
          intro hf hc
          refine hcont hf ?_
          -- nothing of this native block is in the EVM block of the fork point
          rw [hc, contents_cons_of_not_removed older hf hrem]
      · rw [if_neg hid] at h
        have hp : (nb :: older, e :: es) = (natives', evms') := Except.ok.inj h
        obtain ⟨rfl, rfl⟩ := Prod.mk.inj hp
        rw [List.dropWhile_cons, if_neg (by simpa using hid)]
        exact ⟨rfl, e.transactions, rfl, List.prefix_refl _, fun _ hc => hc⟩

/-- The same removal never reaches `back()` of an empty vector when the head
    EVM block holds the contents of the native blocks. -/
theorem removeForkedNativeBlocks_ne_undefined {E : Env Tx} {f : NativeBlock} :
    ∀ {natives : List NativeBlock} {e : Block Tx} {es : List (Block Tx)},
      (e.header.number = E.evmNum f →
        e.transactions.map some = contents E e.header.number natives) →
      removeForkedNativeBlocks E f natives (e :: es) ≠ .error .undefined := by
  intro natives
  induction natives with
  | nil => intro e es _ h; cases h
  | cons nb older ih =>
      intro e es hc h
      rw [removeForkedNativeBlocks] at h
      by_cases hid : nb.id ≠ f.id
      · rw [if_pos hid] at h
        by_cases hrem : nb.transactions.length > 0 ∧ E.evmNum nb = E.evmNum f
        · rw [if_pos hrem] at h
          by_cases hnum : E.evmNum nb ≠ e.header.number
          · simp only [if_pos hnum] at h
            cases h
          · simp only [if_neg hnum] at h
            have hnum' : E.evmNum nb = e.header.number := not_not.mp hnum
            have hc' := hc (hnum'.symm.trans hrem.2)
            have hlen : nb.reverseActions.length ≤ e.transactions.length := by
              have := congrArg List.length hc'
              rw [contents_cons_of_eq older hnum', List.length_map,
                List.length_append, List.length_map] at this
              rw [NativeBlock.reverseActions_eq, List.length_reverse]
              omega
            cases htxs : removeTransactions E nb.reverseActions e.transactions with
            | error err =>
                rw [htxs] at h
                have herr : err = .undefined := Except.error.inj h
                exact removeTransactions_ne_undefined hlen (herr ▸ htxs)
            | ok txs =>
                rw [htxs] at h
                refine ih (fun _ => ?_) h
                exact contents_of_removed hnum' hc' htxs
        · rw [if_neg hrem] at h
          refine ih (fun hf => ?_) h
          rw [hc hf, contents_cons_of_not_removed older hf hrem]
      · rw [if_neg hid] at h
        cases h

/-- Without EVM blocks the loop puts none back. -/
theorem removeForkedNativeBlocks_nil {E : Env Tx} {f : NativeBlock} :
    ∀ {natives natives' : List NativeBlock} {evms' : List (Block Tx)},
      removeForkedNativeBlocks E f natives [] = .ok (natives', evms') →
      evms' = [] := by
  intro natives
  induction natives with
  | nil =>
      intro natives' evms' h
      exact (Prod.mk.inj (Except.ok.inj h)).2.symm
  | cons nb older ih =>
      intro natives' evms' h
      rw [removeForkedNativeBlocks] at h
      by_cases hid : nb.id ≠ f.id
      · rw [if_pos hid] at h
        by_cases hc : nb.transactions.length > 0 ∧ E.evmNum nb = E.evmNum f
        · rw [if_pos hc] at h
          cases h
        · rw [if_neg hc] at h
          exact ih h
      · rw [if_neg hid] at h
        exact (Prod.mk.inj (Except.ok.inj h)).2.symm

/-- What a successful rollback leaves. -/
structure RolledBack (E : Env Tx) (s : State Tx) (f : NativeBlock)
    (s' : State Tx) (back : NativeBlock) (older : List NativeBlock)
    (e : Block Tx) (es : List (Block Tx)) (txs : List Tx) : Prop where
  natives : s.nativeBlocks.dropWhile (fun nb => nb.id ≠ f.id) = back :: older
  evms : removeForkedEvmBlocks E f s.evmBlocks = e :: es
  number : E.evmNum back = e.header.number
  result : s' = { s with
    nativeBlocks := back :: older
    evmBlocks := setUpperBound { e with transactions := txs } back :: es }
  shorter : txs <+: e.transactions
  /-- The transactions are cut back to the contents of the kept blocks. -/
  cut : e.header.number = E.evmNum f →
    e.transactions.map some = contents E e.header.number s.nativeBlocks →
    txs.map some = contents E e.header.number (back :: older)

theorem rollback_ok {E : Env Tx} {s s' : State Tx} {f : NativeBlock}
    (h : rollback E s f = .ok s') :
    ∃ back older e es txs, RolledBack E s f s' back older e es txs := by
  obtain ⟨⟨natives, evms⟩, hrem, h⟩ := bind_ok h
  cases hevm : removeForkedEvmBlocks E f s.evmBlocks with
  | nil =>
      -- no EVM block is left to set an upper bound on
      rw [hevm] at hrem
      have hnil : evms = [] := removeForkedNativeBlocks_nil hrem
      subst hnil
      cases h
  | cons e es =>
      rw [hevm] at hrem
      obtain ⟨hnat, txs, hevms, hpre, hcut⟩ := removeForkedNativeBlocks_ok hrem
      subst hevms
      cases natives with
      | nil => cases h
      | cons back older =>
          by_cases hnum : E.evmNum back ≠ e.header.number
          · simp only [if_pos hnum] at h
            cases h
          · simp only [if_neg hnum] at h
            exact ⟨back, older, e, es, txs, hnat.symm, hevm, not_not.mp hnum,
              (Except.ok.inj h).symm, hpre, hcut⟩

/-! ## The link check -/

theorem findForkBlock_some {s : State Tx} {b f : NativeBlock}
    (h : findForkBlock s b = some f) :
    f ∈ s.nativeBlocks ∧ f.id = b.prev := by
  have hmem := List.mem_of_find?_eq_some h
  have hid := List.find?_some h
  exact ⟨List.mem_reverse.mp hmem, by simpa using hid⟩

/-- The parent is found when no other cached block has its id. -/
theorem findForkBlock_eq {s : State Tx} {b p : NativeBlock}
    (hids : ∀ nb ∈ s.nativeBlocks, nb.id = p.id → nb = p)
    (hp : p ∈ s.nativeBlocks) (hlink : p.id = b.prev) :
    findForkBlock s b = some p := by
  cases hfind : findForkBlock s b with
  | none =>
      rw [findForkBlock, List.find?_eq_none] at hfind
      exact absurd hlink (by simpa using hfind p (List.mem_reverse.mpr hp))
  | some f =>
      obtain ⟨hf, hid⟩ := findForkBlock_some hfind
      rw [hids f hf (hid.trans hlink.symm)]

/-- A duplicate that does not link to the last native block is dropped. -/
theorem linkNativeBlock_duplicate {E : Env Tx} {s : State Tx} {b back : NativeBlock}
    (hback : s.nativeBlocks.head? = some back) (hne : back.id ≠ b.prev)
    (hcached : isCached s b.id = true) : linkNativeBlock E s b = .ok none := by
  obtain ⟨older, hnat⟩ := List.head?_eq_some_iff.mp hback
  rw [linkNativeBlock, hnat]
  simp only [if_neg hne, if_pos hcached]

/-- The three ways the link check can succeed. -/
theorem linkNativeBlock_ok {E : Env Tx} {s : State Tx} {b : NativeBlock}
    {r : Option (State Tx)} (h : linkNativeBlock E s b = .ok r) :
    (r = none ∧ isCached s b.id = true) ∨
    (r = some s ∧ ∀ back ∈ s.nativeBlocks.head?, back.id = b.prev) ∨
    (∃ f s', findForkBlock s b = some f ∧ rollback E s f = .ok s' ∧
      r = some s') := by
  rw [linkNativeBlock] at h
  cases hnb : s.nativeBlocks with
  | nil =>
      rw [hnb] at h
      refine Or.inr (Or.inl ⟨(Except.ok.inj h).symm, ?_⟩)
      intro back hback
      cases hback
  | cons back older =>
      rw [hnb] at h
      by_cases hprev : back.id = b.prev
      · simp only [if_pos hprev] at h
        refine Or.inr (Or.inl ⟨(Except.ok.inj h).symm, ?_⟩)
        intro x hx
        have hxb : back = x := Option.some.inj hx
        exact hxb ▸ hprev
      · simp only [if_neg hprev] at h
        by_cases hdup : isCached s b.id = true
        · rw [if_pos hdup] at h
          exact Or.inl ⟨(Except.ok.inj h).symm, hdup⟩
        · rw [if_neg hdup] at h
          cases hf : findForkBlock s b with
          | none => rw [hf] at h; cases h
          | some f =>
              rw [hf] at h
              obtain ⟨s', hs', h⟩ := bind_ok h
              exact Or.inr (Or.inr ⟨f, s', rfl, hs', (Except.ok.inj h).symm⟩)

end BlockConversion
