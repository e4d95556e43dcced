import EosEvmNode.BlockConversion.Safety

/-! # The rollback does not throw

    The rollback compares the hash of every action's payload with the hash of
    the re-encoded transaction it is about to remove, and stops when they
    differ or when the EVM block of the fork point is not there.  On a coherent
    state neither happens, provided that the comparison lets the transactions of
    the popped native blocks go (`Removable`; payloads that re-encode to themselves
    do) and the EVM block of the fork point is cached. -/

namespace BlockConversion

open Channels Silkworm Engine Runs

variable {Tx : Type}

/-- The hash comparison of the rollback lets the action's transaction go. -/
def Recoverable (E : Env Tx) (act : NativeAction) : Prop :=
  ∀ dtx ∈ (deserializeTx E act).toOption,
    ∀ tx ∈ E.libs.decodeTransaction dtx.rlpx,
      E.libs.keccak256 dtx.rlpx = E.libs.keccak256 (E.libs.encode tx)

/-- A fork at `f` can take out what the native block has put into the EVM block of
    `f`; what lies in another EVM block goes with that block. -/
def Removable (E : Env Tx) (f nb : NativeBlock) : Prop :=
  E.evmNum nb = E.evmNum f → ∀ act ∈ nb.actions, Recoverable E act

/-- The transactions of the block encode back to the bytes they came from. -/
def RoundTrips (E : Env Tx) (nb : NativeBlock) : Prop :=
  ∀ act ∈ nb.actions, ∀ dtx ∈ (deserializeTx E act).toOption,
    ∀ tx ∈ E.libs.decodeTransaction dtx.rlpx, E.libs.encode tx = dtx.rlpx

instance (E : Env Tx) (f nb : NativeBlock) : Decidable (Removable E f nb) :=
  inferInstanceAs (Decidable (E.evmNum nb = E.evmNum f → ∀ act ∈ nb.actions,
    ∀ dtx ∈ (deserializeTx E act).toOption,
      ∀ tx ∈ E.libs.decodeTransaction dtx.rlpx,
        E.libs.keccak256 dtx.rlpx = E.libs.keccak256 (E.libs.encode tx)))

instance (E : Env Tx) (nb : NativeBlock) : Decidable (RoundTrips E nb) :=
  inferInstanceAs (Decidable (∀ act ∈ nb.actions,
    ∀ dtx ∈ (deserializeTx E act).toOption,
      ∀ tx ∈ E.libs.decodeTransaction dtx.rlpx, E.libs.encode tx = dtx.rlpx))

theorem RoundTrips.removable {E : Env Tx} {nb : NativeBlock} (h : RoundTrips E nb)
    (f : NativeBlock) : Removable E f nb := by
  intro _ act hact dtx hdtx tx htx
  rw [h act hact dtx hdtx tx htx]

/-- **When transactions can be removed**: what an accepted list of actions has
    appended comes off again, and nothing else does, exactly when each of the
    actions passes the hash comparison.  The actions are visited last first. -/
theorem removeTransactions_ok_iff {E : Env Tx} :
    ∀ {acts : List NativeAction} {older newer txs : List Tx},
      newer.reverse.map some = acts.map (decodedTx E) →
      (removeTransactions E acts (older ++ newer) = .ok txs ↔
        txs = older ∧ ∀ act ∈ acts, Recoverable E act) := by
  intro acts
  induction acts with
  | nil =>
      intro older newer txs h
      have hnil : newer = [] := by simpa using h
      rw [hnil, List.append_nil, removeTransactions]
      constructor
      · intro hok
        exact ⟨(Except.ok.inj hok).symm, fun act hact => by cases hact⟩
      · rintro ⟨rfl, -⟩
        rfl
  | cons act acts ih =>
      intro older newer txs h
      -- the last transaction is the one of the action visited first
      rw [List.map_cons] at h
      obtain ⟨tx, rest, hrev, htx, hrest⟩ := List.map_eq_cons_iff.mp h
      have hnewer : newer = rest.reverse ++ [tx] := by
        rw [← List.reverse_reverse newer, hrev, List.reverse_cons]
      have hnewer' : rest.reverse.reverse.map some = acts.map (decodedTx E) := by
        rw [List.reverse_reverse]
        exact hrest
      rw [decodedTx] at htx
      cases hd : deserializeTx E act with
      | error err => rw [hd] at htx; cases htx
      | ok dtx =>
          rw [hd] at htx
          have hkeccak : Recoverable E act ↔
              E.libs.keccak256 dtx.rlpx = E.libs.keccak256 (E.libs.encode tx) := by
            rw [Recoverable, hd]
            constructor
            · intro hact
              exact hact dtx rfl tx htx.symm
            · rintro heq d hd' x hx
              obtain rfl := Option.some.inj hd'
              rw [← Option.some.inj (htx.trans hx)]
              exact heq
          rw [removeTransactions, hd, ok_bind, hnewer, ← List.append_assoc,
            List.getLast?_concat, List.dropLast_concat]
          simp only [List.forall_mem_cons, hkeccak]
          by_cases heq : E.libs.keccak256 dtx.rlpx
              = E.libs.keccak256 (E.libs.encode tx)
          · rw [if_neg (not_not.mpr heq), ih hnewer']
            constructor
            · rintro ⟨htxs, hrest⟩
              exact ⟨htxs, heq, hrest⟩
            · rintro ⟨htxs, -, hrest⟩
              exact ⟨htxs, hrest⟩
          · rw [if_pos heq]
            constructor
            · intro hok
              cases hok
            · rintro ⟨-, hact, -⟩
              exact absurd hact heq

/-- Transactions that pass the comparison come off. -/
theorem removeTransactions_total {E : Env Tx} {acts : List NativeAction}
    {txs : List Tx} {pre : List (Option Tx)}
    (hrec : ∀ act ∈ acts, Recoverable E act)
    (htxs : txs.map some = pre ++ (acts.map (decodedTx E)).reverse) :
    ∃ txs', removeTransactions E acts txs = .ok txs' := by
  obtain ⟨older, newer, rfl, -, hnewer⟩ := List.map_eq_append_iff.mp htxs
  refine ⟨older, (removeTransactions_ok_iff ?_).mpr ⟨rfl, hrec⟩⟩
  rw [List.map_reverse, hnewer, List.reverse_reverse]

/-- The native loop succeeds when the head EVM block is the one of the fork
    point and holds the contents of the native blocks. -/
theorem removeForkedNativeBlocks_total {E : Env Tx} {f : NativeBlock} :
    ∀ {natives : List NativeBlock} {e : Block Tx} {es : List (Block Tx)},
      (∀ nb ∈ natives.takeWhile (fun nb => nb.id ≠ f.id), Removable E f nb) →
      e.header.number = E.evmNum f →
      e.transactions.map some = contents E e.header.number natives →
      ∃ r, removeForkedNativeBlocks E f natives (e :: es) = .ok r := by
  intro natives
  induction natives with
  | nil => intro e es _ _ _; exact ⟨_, rfl⟩
  | cons nb older ih =>
      intro e es hrem hnum hc
      rw [removeForkedNativeBlocks]
      by_cases hid : nb.id ≠ f.id
      · rw [List.takeWhile_cons, if_pos (by simpa using hid)] at hrem
        have hrem' := fun x hx => hrem x (List.mem_cons_of_mem nb hx)
        rw [if_pos hid]
        by_cases hin : nb.transactions.length > 0 ∧ E.evmNum nb = E.evmNum f
        · -- the actions are taken off in reverse, each from the end of the list
          have heq : E.evmNum nb = e.header.number := hin.2.trans hnum.symm
          rw [if_pos hin]
          simp only [if_neg (not_not.mpr heq)]
          have hcontents := hc
          rw [contents_cons_of_eq older heq] at hcontents
          have hrev : (nb.reverseActions.map (decodedTx E)).reverse
              = nb.actions.map (decodedTx E) := by
            rw [NativeBlock.reverseActions_eq, List.map_reverse,
              List.reverse_reverse]
          have hmem : ∀ act ∈ nb.reverseActions, act ∈ nb.actions := by
            intro act hact
            rw [NativeBlock.reverseActions_eq] at hact
            exact List.mem_reverse.mp hact
          obtain ⟨txs, htxs⟩ := removeTransactions_total
            (fun act hact => hrem nb List.mem_cons_self hin.2 act (hmem act hact))
            (hrev.symm ▸ hcontents)
          rw [htxs]
          exact ih hrem' hnum (contents_of_removed heq hc htxs)
        · rw [if_neg hin]
          refine ih hrem' hnum ?_
          rw [hc, contents_cons_of_not_removed older hnum hin]
      · rw [if_neg hid]
        exact ⟨_, rfl⟩

/-- A list whose values fall by one takes every value between its last one and any
    other. -/
theorem exists_eq_of_descending {α : Type} {f : α → Nat} :
    ∀ {l : List α}, l.IsChain (fun x y => f x = f y + 1) → ∀ {k : Nat},
      (∀ last ∈ l.getLast?, f last ≤ k) → ∀ x ∈ l, k ≤ f x →
      ∃ y ∈ l, f y = k := by
  intro l
  induction l with
  | nil => intro _ k _ x hx; cases hx
  | cons a l ih =>
      intro hchain k hlast x hx hle
      cases l with
      | nil =>
          have := hlast a rfl
          rw [List.mem_singleton.mp hx] at hle
          exact ⟨a, List.mem_cons_self, by omega⟩
      | cons b l =>
          obtain ⟨hlink, htail⟩ := List.isChain_cons_cons.mp hchain
          rw [List.getLast?_cons_cons] at hlast
          by_cases heq : f a = k
          · exact ⟨a, List.mem_cons_self, heq⟩
          · -- then the value is taken further down
            have hbelow : ∃ y ∈ b :: l, k ≤ f y := by
              rcases List.mem_cons.mp hx with rfl | hmem
              · exact ⟨b, List.mem_cons_self, by omega⟩
              · exact ⟨x, hmem, hle⟩
            obtain ⟨y, hy, hky⟩ := hbelow
            obtain ⟨z, hz, hzk⟩ := ih htail hlast y hy hky
            exact ⟨z, List.mem_cons_of_mem _ hz, hzk⟩

/-- Between the front and the head every EVM block number is cached. -/
theorem Consecutive.exists_number {evms : List (Block Tx)} (hcons : Consecutive evms)
    {k : Nat} (hfront : ∀ front ∈ evms.getLast?, front.header.number ≤ k)
    (hhead : ∃ e ∈ evms.head?, k ≤ e.header.number) :
    ∃ e ∈ evms, e.header.number = k := by
  obtain ⟨e, he, hk⟩ := hhead
  exact exists_eq_of_descending hcons hfront e (List.mem_of_head? he) hk

/-- Popping the EVM blocks after the fork point stops at the fork point's. -/
theorem removeForkedEvmBlocks_eq {E : Env Tx} {f : NativeBlock}
    {evms : List (Block Tx)} (hcons : Consecutive evms)
    (h : ∃ e ∈ evms, e.header.number = E.evmNum f) :
    ∃ e es, removeForkedEvmBlocks E f evms = e :: es ∧
      e.header.number = E.evmNum f := by
  obtain ⟨x, hx, hnum⟩ := h
  cases hdrop : removeForkedEvmBlocks E f evms with
  | nil =>
      rw [removeForkedEvmBlocks, List.dropWhile_eq_nil_iff] at hdrop
      have := hdrop x hx
      simp only [decide_eq_true_eq] at this
      omega
  | cons e es =>
      refine ⟨e, es, rfl, ?_⟩
      have hle := removeForkedEvmBlocks_head_le hdrop
      have hsuf := removeForkedEvmBlocks_suffix hdrop
      rw [removeForkedEvmBlocks] at hdrop
      -- the block of the fork point is not among the popped ones
      have hmem : x ∈ e :: es := by
        rw [← List.takeWhile_append_dropWhile
          (p := fun e : Block Tx => decide (E.evmNum f < e.header.number))
          (l := evms), hdrop] at hx
        rcases List.mem_append.mp hx with hpop | hkept
        · have := List.mem_takeWhile_imp hpop
          simp only [decide_eq_true_eq] at this
          omega
        · exact hkept
      rcases List.mem_cons.mp hmem with rfl | hold
      · exact hnum
      · have hsub : Consecutive (e :: es) := List.IsChain.suffix hcons hsuf
        have hlt := hsub.tail_lt x hold
        omega

/-- **The rollback succeeds** when the EVM block of the fork point is cached. -/
theorem Coherent.rollback_total {E : Env Tx} {startBlock : Block Tx}
    (hE : Started E startBlock) {s : State Tx} {f : NativeBlock}
    (h : Coherent E startBlock s) (hf : f ∈ s.nativeBlocks)
    (hids : ∀ nb ∈ s.nativeBlocks, nb.id = f.id → nb = f)
    (hrem : ∀ nb ∈ s.nativeBlocks.takeWhile (fun nb => nb.id ≠ f.id),
      Removable E f nb)
    (hevm : ∃ e ∈ s.evmBlocks, e.header.number = E.evmNum f) :
    ∃ t, BlockConversion.rollback E s f = .ok t := by
  obtain ⟨e, es, hpop, hnum⟩ := removeForkedEvmBlocks_eq h.filled.consecutive hevm
  have hmem : e ∈ s.evmBlocks :=
    (removeForkedEvmBlocks_suffix hpop).subset List.mem_cons_self
  have hlt := lt_evmNum hE (h.filled.dated f hf)
  have hcontents := h.filled.contents e hmem (by omega)
  have htotal : ∃ r, removeForkedNativeBlocks E f s.nativeBlocks (e :: es)
      = .ok r := removeForkedNativeBlocks_total hrem hnum hcontents
  obtain ⟨⟨natives, evms⟩, hok⟩ := htotal
  obtain ⟨hnat, txs, hevms, -, -⟩ := removeForkedNativeBlocks_ok hok
  subst hevms
  rw [BlockConversion.rollback, hpop, hok]
  cases natives with
  | nil =>
      have hnil := hnat.symm
      rw [List.dropWhile_eq_nil_iff] at hnil
      have := hnil f hf
      simp at this
  | cons back older =>
      -- the loop stops at the fork point
      have hback : back = f := by
        refine hids back ?_ ?_
        · have hsuf : back :: older <:+ s.nativeBlocks := by
            rw [hnat]
            exact List.dropWhile_suffix _
          exact hsuf.subset List.mem_cons_self
        · exact id_of_dropWhile hnat.symm
      subst hback
      have heq : E.evmNum back = e.header.number := hnum.symm
      show ∃ t, (if E.evmNum back ≠ e.header.number then _ else _) = Except.ok t
      rw [if_neg (not_not.mpr heq)]
      exact ⟨_, rfl⟩

end BlockConversion
