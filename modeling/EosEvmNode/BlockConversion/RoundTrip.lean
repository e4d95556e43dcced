import EosEvmNode.BlockConversion.Forward
import EosEvmNode.BlockConversion.Rollback
import Mathlib.Data.Nat.Digits.Lemmas

/-! # Undoing an accepted block — the append and the removal are inverses

    A native block is accepted into the current EVM block, and the next one
    forks off its parent within the same second.  The rollback then visits the
    actions of the first block backwards and compares the hash of each payload
    with the hash of the transaction it has to remove.  The forward path stores
    what the payload DECODES to, so the two are inverses exactly on the payloads
    that encode back to something with their own hash (`Recoverable`). -/

namespace BlockConversion

open Channels Silkworm Engine Runs

variable {Tx : Type}

/-- What the native chain promises when ids are told apart as well: a block
    delivered on top of the last one is not one of the cached blocks. -/
structure Distinct (E : Env Tx) (s : State Tx) (b : NativeBlock) : Prop where
  dated : Dated E s b
  fresh : OnTop s b → isCached s b.id = false

instance (E : Env Tx) (s : State Tx) (b : NativeBlock) :
    Decidable (Distinct E s b) :=
  decidable_of_iff (Dated E s b ∧
      ((∀ back ∈ s.nativeBlocks.head?, back.id = b.prev) →
        isCached s b.id = false))
    ⟨fun ⟨h₁, h₂⟩ => ⟨h₁, h₂⟩, fun ⟨h₁, h₂⟩ => ⟨h₁, h₂⟩⟩

/-- No two cached native blocks share an id. -/
def DistinctIds (natives : List NativeBlock) : Prop :=
  (natives.map (fun nb => nb.id)).Nodup

/-- The transaction list of EVM block `k`; empty before there is one. -/
def transactionsAt (s : State Tx) (k : Nat) : List Tx :=
  ((s.evmBlocks.find? (fun e => e.header.number = k)).map
    (fun e => e.transactions)).getD []

theorem transactionsAt_head {s : State Tx} {e : Block Tx} {es : List (Block Tx)}
    {k : Nat} (hevm : s.evmBlocks = e :: es) (hnum : e.header.number = k) :
    transactionsAt s k = e.transactions := by
  rw [transactionsAt, hevm, List.find?_cons]
  simp [hnum]

/-- `b` has been accepted: linked onto the last block of `t`, which lies in the
    EVM block of `b`, and added, which gave `s'`. -/
structure Joined (E : Env Tx) (s : State Tx) (b : NativeBlock)
    (t s' : State Tx) : Prop where
  linked : linkNativeBlock E s b = .ok (some t)
  same_second : ∀ back ∈ t.nativeBlocks.head?, E.evmNum back = E.evmNum b
  accepted : nativeBlocksHandler E s b = .ok s'

/-- `c` is a new block that forks off the parent of `b`, within its second. -/
structure ForksOff (E : Env Tx) (s' : State Tx) (b c : NativeBlock) : Prop where
  dated : Dated E s' c
  prev : c.prev = b.prev
  same_second : E.evmNum c = E.evmNum b
  fresh : isCached s' c.id = false

/-- On receiving `c` the handler removes `b` without an exception and goes on
    with the transaction list that the EVM block of `b` had in `t`. -/
def TakenBack (E : Env Tx) (t : State Tx) (b : NativeBlock) (s' : State Tx)
    (c : NativeBlock) : Prop :=
  ∃ t', linkNativeBlock E s' c = .ok (some t') ∧
    nativeBlocksHandler E s' c = appendNativeBlock E t' c ∧
    b ∉ t'.nativeBlocks ∧
    transactionsAt t' (E.evmNum b) = transactionsAt t (E.evmNum b)

/-! ## Distinct ids -/

section Ids

variable {E : Env Tx} {startBlock : Block Tx}

theorem isCached_eq_false {s : State Tx} {id : Bytes32} :
    isCached s id = false ↔ ∀ nb ∈ s.nativeBlocks, id ≠ nb.id := by
  rw [isCached, List.any_eq_false]
  refine forall₂_congr (fun nb _ => ?_)
  rw [decide_eq_true_eq]
  exact ne_comm

/-- A block that is linked is not cached, unless it is linked on top. -/
theorem linkNativeBlock_fresh {s t : State Tx} {b : NativeBlock}
    (h : linkNativeBlock E s b = .ok (some t)) :
    OnTop s b ∨ isCached s b.id = false := by
  rw [linkNativeBlock] at h
  cases hnat : s.nativeBlocks with
  | nil =>
      refine Or.inl (fun back hback => ?_)
      rw [hnat] at hback
      cases hback
  | cons back older =>
      rw [hnat] at h
      by_cases hprev : back.id = b.prev
      · refine Or.inl (fun x hx => ?_)
        rw [hnat] at hx
        rw [← Option.some.inj hx]
        exact hprev
      · simp only [if_neg hprev] at h
        refine Or.inr ?_
        cases hdup : isCached s b.id with
        | true => rw [if_pos hdup] at h; cases h
        | false => rfl

/-- The native blocks after an accepted block: it is the last of them, and
    irreversible ones may have been dropped. -/
theorem appendNativeBlock_natives {t s' : State Tx} {b : NativeBlock}
    (h : appendNativeBlock E t b = .ok s') :
    s'.nativeBlocks <+: b :: t.nativeBlocks := by
  obtain ⟨u, curr, older, curr', written, ha⟩ := appendNativeBlock_ok h
  have hnat : u.nativeBlocks = b :: t.nativeBlocks :=
    (extendEvmChain_frame ha.extended).1
  rw [← hnat]
  rcases removeIrreversible_ok ha.pruned with
    ⟨-, rfl⟩ | ⟨it, oldNatives, oldEvms, -, hp⟩
  · exact List.prefix_refl _
  · have hsplit : u.nativeBlocks = s'.nativeBlocks ++ oldNatives := hp.natives
    rw [hsplit]
    exact List.prefix_append _ _

/-- A linked block goes on to be appended. -/
theorem handler_of_link {s t : State Tx} {b : NativeBlock}
    (hb : Dated E s b) (hlink : linkNativeBlock E s b = .ok (some t)) :
    nativeBlocksHandler E s b = appendNativeBlock E t b := by
  rw [nativeBlocksHandler, if_neg hb.not_before, hlink]
  rfl

/-- An accepted block keeps the ids apart. -/
theorem DistinctIds.append {t s' : State Tx} {b : NativeBlock}
    (h : DistinctIds t.nativeBlocks) (hfresh : ∀ nb ∈ t.nativeBlocks, b.id ≠ nb.id)
    (happ : appendNativeBlock E t b = .ok s') : DistinctIds s'.nativeBlocks := by
  have hcons : DistinctIds (b :: t.nativeBlocks) := by
    refine List.nodup_cons.mpr ⟨?_, h⟩
    intro hmem
    obtain ⟨nb, hnb, hid⟩ := List.mem_map.mp hmem
    exact hfresh nb hnb hid.symm
  exact hcons.sublist ((appendNativeBlock_natives happ).sublist.map _)

/-- The native blocks left by the link check, none of them the received one. -/
theorem Coherent.link_fresh (hE : Started E startBlock) {s t : State Tx}
    {b : NativeBlock} (h : Coherent E startBlock s) (hb : Distinct E s b)
    (hlink : linkNativeBlock E s b = .ok (some t)) :
    t.nativeBlocks <:+ s.nativeBlocks ∧ ∀ nb ∈ t.nativeBlocks, b.id ≠ nb.id := by
  obtain ⟨-, hsuf, -⟩ := h.link hE (LinkedTo.of_link hlink)
  have hcached : isCached s b.id = false := by
    rcases linkNativeBlock_fresh hlink with htop | hcached
    · exact hb.fresh htop
    · exact hcached
  exact ⟨hsuf, fun nb hnb => isCached_eq_false.mp hcached nb (hsuf.subset hnb)⟩

theorem DistinctIds.step (hE : Started E startBlock) {s s' : State Tx}
    {b : NativeBlock} (hs : Coherent E startBlock s)
    (h : DistinctIds s.nativeBlocks) (hb : Distinct E s b)
    (hstep : nativeBlocksHandler E s b = .ok s') : DistinctIds s'.nativeBlocks := by
  have hsplit := hstep
  rw [nativeBlocksHandler, if_neg hb.dated.not_before] at hsplit
  obtain ⟨r, hlink, happ⟩ := bind_ok hsplit
  cases r with
  | none =>
      obtain rfl := Except.ok.inj happ
      exact h
  | some t =>
      obtain ⟨hsuf, hfresh⟩ := hs.link_fresh hE hb hlink
      have ht : DistinctIds t.nativeBlocks := h.sublist (hsuf.sublist.map _)
      exact ht.append hfresh happ

/-- **The two invariants over a run.** -/
theorem distinct_reach (hE : Started E startBlock) {evmLib₀ : Nat}
    {bs : List NativeBlock} {s : State Tx}
    (hrun : Reach (nativeBlocksHandler E) (Distinct E)
      (initialState startBlock evmLib₀) bs s) :
    Coherent E startBlock s ∧ DistinctIds s.nativeBlocks := by
  refine hrun.invariant (P := fun s => Coherent E startBlock s ∧
    DistinctIds s.nativeBlocks) ⟨coherent_init hE evmLib₀, ?_⟩ ?_
  · exact List.nodup_singleton _
  · rintro s b s' ⟨hs, hids⟩ hb hstep
    exact ⟨hs.step hE hb.dated hstep, hids.step hE hs hb hstep⟩

end Ids

/-! ## The accepted block and its removal -/

section Removal

variable {E : Env Tx} {startBlock : Block Tx}

/-- What the EVM block that the native blocks end in holds. -/
theorem Filled.transactions_head {natives : List NativeBlock} {curr : Block Tx}
    {older : List (Block Tx)} {k : Nat}
    (h : Filled E startBlock natives (curr :: older))
    (hk : startBlock.header.number < k) (hnum : curr.header.number = k) :
    curr.transactions.map some = BlockConversion.contents E k natives := by
  rw [← hnum]
  exact h.contents curr List.mem_cons_self (by omega)

/-- The transaction list of the EVM block of the last native block, whether that
    EVM block has been started or not. -/
theorem Coherent.transactionsAt_last (hE : Started E startBlock) {t : State Tx}
    (h : Coherent E startBlock t) {p : NativeBlock}
    (hp : t.nativeBlocks.head? = some p) :
    (transactionsAt t (E.evmNum p)).map some
      = BlockConversion.contents E (E.evmNum p) t.nativeBlocks := by
  have hmem : p ∈ t.nativeBlocks := List.mem_of_head? hp
  have hlt := lt_evmNum hE (h.filled.dated p hmem)
  rw [transactionsAt]
  cases hfind : t.evmBlocks.find? (fun e => e.header.number = E.evmNum p) with
  | some e =>
      have hnum : e.header.number = E.evmNum p := by
        simpa using List.find?_some hfind
      have he : e ∈ t.evmBlocks := List.mem_of_find?_eq_some hfind
      show e.transactions.map some = _
      rw [h.filled.contents e he (by omega), hnum]
  | none =>
      -- the EVM blocks end below it, so the native blocks there carry nothing
      obtain ⟨e, es, hevm⟩ := List.exists_cons_of_ne_nil h.evms_ne
      have hne : e.header.number ≠ E.evmNum p := by
        rw [hevm, List.find?_eq_none] at hfind
        simpa using hfind e List.mem_cons_self
      have hle := h.head_le e (by rw [hevm]; rfl) p hp
      refine (contents_eq_nil ?_).symm
      intro nb hnb heq
      rcases h.filled.reached e (by rw [hevm]; rfl) nb hnb with hreach | hnil
      · omega
      · exact hnil

/-- The parent of the last native block stays when it lies in the same EVM
    block: what is dropped lies below the EVM block of the LIB entry. -/
theorem Filled.parent_kept (hE : Started E startBlock) {v s' : State Tx}
    {b p : NativeBlock} {ps : List NativeBlock} {evms : List (Block Tx)}
    {lib : Nat} (h : Filled E startBlock (b :: p :: ps) evms)
    (hnat : v.nativeBlocks = b :: p :: ps) (hsame : E.evmNum p = E.evmNum b)
    (hprune : removeIrreversible E v lib = .ok s') :
    ∃ olderNatives, s'.nativeBlocks = b :: p :: olderNatives := by
  rcases removeIrreversible_ok hprune with
    ⟨-, rfl⟩ | ⟨it, oldNatives, oldEvms, hit, hp⟩
  · exact ⟨ps, hnat⟩
  · have hsplit := hp.natives
    rw [hnat] at hsplit
    have hitmem : it ∈ b :: p :: ps := hnat ▸ libEntry_mem hit
    have hitpos := lt_evmNum hE (h.dated it hitmem)
    have hitle := h.evmNum_le_head hE it hitmem
    have hbelow : evmLibOf E it < E.evmNum it := evmLibOf_lt (by omega)
    cases hkept : s'.nativeBlocks with
    | nil => exact absurd hkept hp.natives_ne
    | cons x xs =>
        rw [hkept, List.cons_append] at hsplit
        obtain ⟨rfl, hrest⟩ := List.cons.inj hsplit
        cases xs with
        | cons q qs =>
            obtain ⟨rfl, -⟩ := List.cons.inj hrest
            exact ⟨qs, rfl⟩
        | nil =>
            -- a dropped parent would lie below the EVM block of the entry
            have hpold : p ∈ oldNatives := by
              rw [List.nil_append] at hrest
              rw [← hrest]
              exact List.mem_cons_self
            have := hp.natives_below p hpold
            omega

/-- The state after a block has been accepted next to its parent `p`. -/
structure Stacked (E : Env Tx) (t s' : State Tx) (b p : NativeBlock)
    (olderNatives : List NativeBlock) (curr : Block Tx)
    (older : List (Block Tx)) (txs : List Tx) : Prop where
  natives : s'.nativeBlocks = b :: p :: olderNatives
  evms : s'.evmBlocks = curr :: older
  link : p.id = b.prev
  same_second : E.evmNum p = E.evmNum b
  number : curr.header.number = E.evmNum b
  transactions : curr.transactions = transactionsAt t (E.evmNum b) ++ txs
  decoded : txs.map some = b.actions.map (decodedTx E)

theorem Joined.stacked (hE : Started E startBlock) {s t s' : State Tx}
    {b : NativeBlock} (hs : Coherent E startBlock s) (hb : Distinct E s b)
    (h : Joined E s b t s') :
    ∃ p olderNatives curr older txs,
      Stacked E t s' b p olderNatives curr older txs := by
  obtain ⟨ht, hsuf, hback⟩ := hs.link hE (LinkedTo.of_link h.linked)
  have hdate : ∀ back ∈ t.nativeBlocks.head?, back.timestamp ≤ b.timestamp :=
    fun back hmem => hb.dated.increasing back
      (hsuf.subset (List.mem_of_head? hmem)) (hback back hmem)
  have happ := h.accepted
  rw [handler_of_link hb.dated h.linked] at happ
  obtain ⟨p, ps, hnat⟩ := List.exists_cons_of_ne_nil ht.natives_ne
  have hlink : p.id = b.prev := hback p (by rw [hnat]; rfl)
  have hsame : E.evmNum p = E.evmNum b := h.same_second p (by rw [hnat]; rfl)
  obtain ⟨u, curr, older, curr', written, ha⟩ := appendNativeBlock_ok happ
  obtain ⟨hunat, hnum, hfilled⟩ := ht.added hE hdate ha.extended ha.evms ha.added
  obtain ⟨c, o, hevm, hcnum, hcfilled⟩ := ht.extended hE hdate ha.extended
  rw [ha.evms] at hevm
  obtain ⟨rfl, rfl⟩ := List.cons.inj hevm
  obtain ⟨txs, hall, hcurr', -⟩ := addNativeBlock_ok hE.lawful ha.added
  have hlt : startBlock.header.number < E.evmNum b := by
    rw [← hsame]
    exact lt_evmNum hE (ht.filled.dated p (by rw [hnat]; exact List.mem_cons_self))
  -- before `b` the EVM block held the contents of the native blocks below it
  have hbefore : curr.transactions = transactionsAt t (E.evmNum b) := by
    refine List.map_injective_iff.mpr (fun _ _ => Option.some.inj) ?_
    rw [hcfilled.transactions_head hlt hcnum, ← hsame]
    exact (ht.transactionsAt_last hE (by rw [hnat]; rfl)).symm
  obtain ⟨olderEvms, hevms⟩ := List.head?_eq_some_iff.mp ha.heads.2
  rw [hnat] at hunat hfilled
  obtain ⟨olderNatives, hnatives⟩ := hfilled.parent_kept hE
    (v := { u with
      evmBlocks := curr' :: older
      consensusParameters := written ++ u.consensusParameters })
    hunat hsame ha.pruned
  refine ⟨p, olderNatives, curr', olderEvms, txs, hnatives, hevms, hlink, hsame,
    hnum, ?_, hall.decoded.symm⟩
  rw [hcurr', ← hbefore]
  rfl

/-- The native loop pops the last block and takes its transactions off. -/
theorem removeForkedNativeBlocks_one {E : Env Tx} {b p : NativeBlock}
    {olderNatives : List NativeBlock} {curr : Block Tx} {older : List (Block Tx)}
    (hbp : b.id ≠ p.id) (hsame : E.evmNum p = E.evmNum b)
    (hnum : curr.header.number = E.evmNum b) :
    removeForkedNativeBlocks E p (b :: p :: olderNatives) (curr :: older)
      = (removeTransactions E b.reverseActions curr.transactions).map
          (fun txs => (p :: olderNatives,
            { curr with transactions := txs } :: older)) := by
  rw [removeForkedNativeBlocks, if_pos hbp]
  by_cases hlen : b.transactions.length > 0
  · rw [if_pos ⟨hlen, hsame.symm⟩]
    simp only [if_neg (not_not.mpr hnum.symm)]
    cases removeTransactions E b.reverseActions curr.transactions with
    | error err => rfl
    | ok txs =>
        rw [ok_bind, removeForkedNativeBlocks, if_neg (not_not.mpr rfl)]
        rfl
  · have hnil : b.reverseActions = [] := by
      rw [NativeBlock.reverseActions_eq, actions_eq_nil_of_transactions hlen]
      rfl
    rw [if_neg (fun hrem => hlen hrem.1), hnil, removeForkedNativeBlocks,
      if_neg (not_not.mpr rfl)]
    rfl

section Stacked

variable {E : Env Tx} {t s' : State Tx} {b p : NativeBlock}
  {olderNatives : List NativeBlock} {curr : Block Tx} {older : List (Block Tx)}
  {txs : List Tx}

/-- **The rollback of one block**: it pops the block and takes its transactions
    off the EVM block, and does nothing else that can fail. -/
theorem Stacked.rollback_eq (h : Stacked E t s' b p olderNatives curr older txs)
    (hbp : b.id ≠ p.id) :
    rollback E s' p
      = (removeTransactions E b.reverseActions curr.transactions).map
          (fun txs => { s' with
            nativeBlocks := p :: olderNatives
            evmBlocks := setUpperBound { curr with transactions := txs } p
              :: older }) := by
  have hpnum : E.evmNum p = curr.header.number := h.same_second.trans h.number.symm
  have hevm : removeForkedEvmBlocks E p s'.evmBlocks = curr :: older := by
    rw [removeForkedEvmBlocks, h.evms, List.dropWhile_cons,
      if_neg (by rw [hpnum]; simp)]
  rw [rollback, hevm, h.natives,
    removeForkedNativeBlocks_one hbp h.same_second h.number]
  cases removeTransactions E b.reverseActions curr.transactions with
  | error err => rfl
  | ok txs =>
      show (if E.evmNum p ≠ curr.header.number then _ else _) = _
      rw [if_neg (not_not.mpr hpnum)]
      rfl

/-- A block that forks off the parent rolls that one block back. -/
theorem Stacked.link_eq {c : NativeBlock}
    (h : Stacked E t s' b p olderNatives curr older txs)
    (hids : DistinctIds s'.nativeBlocks) (hc : ForksOff E s' b c) :
    linkNativeBlock E s' c
      = (removeTransactions E b.reverseActions curr.transactions).map
          (fun txs => some { s' with
            nativeBlocks := p :: olderNatives
            evmBlocks := setUpperBound { curr with transactions := txs } p
              :: older }) := by
  have hlink : p.id = c.prev := h.link.trans hc.prev.symm
  have hp : p ∈ s'.nativeBlocks := by
    rw [h.natives]
    exact List.mem_cons_of_mem _ List.mem_cons_self
  -- ids are distinct, so the search for the parent finds `p`
  have hfork : findForkBlock s' c = some p :=
    findForkBlock_eq (fun nb hnb hid => List.inj_on_of_nodup_map hids hnb hp hid)
      hp hlink
  have hbp : b.id ≠ p.id := by
    rw [h.natives] at hids
    intro heq
    exact (List.nodup_cons.mp hids).1
      (List.mem_map.mpr ⟨p, List.mem_cons_self, heq.symm⟩)
  have hbc : b.id ≠ c.prev := fun hid => hbp (hid.trans hlink.symm)
  rw [linkNativeBlock, h.natives]
  simp only [if_neg hbc, hc.fresh, hfork, h.rollback_eq hbp]
  cases removeTransactions E b.reverseActions curr.transactions with
  | error err => rfl
  | ok txs => rfl

end Stacked

/-- **Rollback against the forward path**: for every reachable state and every
    block accepted into the current EVM block, a fork off its parent within the
    same second undoes it exactly when every action passes the hash comparison.
    A block that goes into the last EVM block has its parent there, and so has a
    first block that is dated in the second of the restored block. -/
theorem rollback_undoes_iff {X : Externals Tx} {db : ChainData Tx}
    {height : Option Nat} {s₀ : State Tx}
    (hload : Loaded X db height startBlock E s₀) {bs : List NativeBlock}
    {s : State Tx} (hrun : Reach (nativeBlocksHandler E) (Distinct E) s₀ bs s)
    {b c : NativeBlock} {t s' : State Tx} (hb : Distinct E s b)
    (h : Joined E s b t s') (hc : ForksOff E s' b c) :
    TakenBack E t b s' c ↔ ∀ act ∈ b.actions, Recoverable E act := by
  obtain ⟨evmLib₀, rfl⟩ := hload.initial
  have hE := hload.started
  obtain ⟨hs, hids⟩ := distinct_reach hE hrun
  have hids' := hids.step hE hs hb h.accepted
  obtain ⟨p, olderNatives, curr, older, txs, hst⟩ := h.stacked hE hs hb
  have hlink := hst.link_eq hids' hc
  -- the removal, action by action
  have hremove : ∀ txs', removeTransactions E b.reverseActions curr.transactions
      = .ok txs' ↔ txs' = transactionsAt t (E.evmNum b) ∧
        ∀ act ∈ b.actions, Recoverable E act := by
    intro txs'
    rw [hst.transactions, NativeBlock.reverseActions_eq]
    have hnewer : txs.reverse.map some
        = b.actions.reverse.map (decodedTx E) := by
      rw [List.map_reverse, hst.decoded, List.map_reverse]
    rw [removeTransactions_ok_iff hnewer]
    simp only [List.mem_reverse]
  constructor
  · rintro ⟨t', ht', -, -, -⟩
    rw [hlink] at ht'
    obtain ⟨txs', htxs', -⟩ := map_ok ht'
    exact ((hremove txs').mp htxs').2
  · intro hall
    rw [(hremove _).mpr ⟨rfl, hall⟩] at hlink
    refine ⟨_, hlink, handler_of_link hc.dated hlink, ?_, ?_⟩
    · -- the ids are distinct, so `b` is in none of the other places
      rw [hst.natives] at hids'
      intro hmem
      exact (List.nodup_cons.mp hids').1 (List.mem_map_of_mem hmem)
    · have hnum : (setUpperBound { curr with
          transactions := transactionsAt t (E.evmNum b) } p).header.number
          = E.evmNum b := hst.number
      exact (transactionsAt_head rfl hnum).trans rfl

end Removal

/-! ## Typed transactions, bare and wrapped

    A typed transaction is a type byte and a payload.  Silkworm reads it in this
    form and as the content of an RLP string; it is encoded back in the first. -/

/-- A type byte and something after it. -/
def isTyped : Bytes → Bool
  | ty :: _ :: _ => ty < 0x80
  | _ => false

/-- The length of a long RLP string, big-endian. -/
def lengthBytes (n : Nat) : Bytes :=
  (Nat.digits 256 n).reverse.map UInt8.ofNat

/-- The RLP string with two or more bytes of content. -/
def rlpString (content : Bytes) : Bytes :=
  if content.length ≤ 55 then UInt8.ofNat (0x80 + content.length) :: content
  else
    let size := lengthBytes content.length
    UInt8.ofNat (0xb7 + size.length) :: size ++ content

/-- `decode_transaction` in mode `kBoth` and `encode` with
    `wrap_eip2718_into_string = false`, on typed transactions. -/
structure DecodesBoth (X : Externals Tx) : Prop where
  bare : ∀ tx, isTyped (X.encode tx) → (X.encode tx).length < 2 ^ 64 →
    X.decodeTransaction (X.encode tx) = some tx
  wrapped : ∀ tx, isTyped (X.encode tx) → (X.encode tx).length < 2 ^ 64 →
    X.decodeTransaction (rlpString (X.encode tx)) = some tx

section Typed

variable {E : Env Tx} {act : NativeAction} {dtx : EvmTx} {tx : Tx}

/-- What the rollback compares when the payload decodes to `tx`. -/
theorem recoverable_iff (hd : deserializeTx E act = .ok dtx)
    (htx : E.libs.decodeTransaction dtx.rlpx = some tx) :
    Recoverable E act ↔
      E.libs.keccak256 dtx.rlpx = E.libs.keccak256 (E.libs.encode tx) := by
  rw [Recoverable, hd]
  constructor
  · intro hact
    exact hact dtx rfl tx htx
  · rintro heq d hd' x hx
    obtain rfl := Option.some.inj hd'
    rw [← Option.some.inj (htx.symm.trans hx)]
    exact heq

/-- A typed transaction in its bare form can be removed. -/
theorem recoverable_bare (hX : DecodesBoth E.libs)
    (hd : deserializeTx E act = .ok dtx) (htyped : isTyped (E.libs.encode tx))
    (hlen : (E.libs.encode tx).length < 2 ^ 64)
    (hbare : dtx.rlpx = E.libs.encode tx) : Recoverable E act := by
  rw [recoverable_iff hd (hbare ▸ hX.bare tx htyped hlen), hbare]

/-- Wrapped into a string it can be removed only if the two forms collide. -/
theorem recoverable_wrapped_iff (hX : DecodesBoth E.libs)
    (hd : deserializeTx E act = .ok dtx) (htyped : isTyped (E.libs.encode tx))
    (hlen : (E.libs.encode tx).length < 2 ^ 64)
    (hwrapped : dtx.rlpx = rlpString (E.libs.encode tx)) :
    Recoverable E act ↔ E.libs.keccak256 (rlpString (E.libs.encode tx))
      = E.libs.keccak256 (E.libs.encode tx) := by
  rw [recoverable_iff hd (hwrapped ▸ hX.wrapped tx htyped hlen), hwrapped]

end Typed

/-! ### An instance that decodes both -/

/-- How many bytes precede the content of an RLP string. -/
def stringHeaderLength (bs : Bytes) : Nat :=
  match bs with
  | [] => 0
  | first :: _ => if first.toNat ≤ 0xb7 then 1 else 1 + (first.toNat - 0xb7)

/-- The typed transaction in an RLP string, or the bytes as they are. -/
def decodeBoth (bs : Bytes) : Option Bytes :=
  let content := bs.drop (stringHeaderLength bs)
  if isTyped content ∧ rlpString content = bs then some content
  else if bs = [] then none
  else some bs

theorem lengthBytes_length_le {n : Nat} (h : n < 2 ^ 64) :
    (lengthBytes n).length ≤ 8 := by
  rw [lengthBytes, List.length_map, List.length_reverse]
  exact (Nat.digits_length_le_iff (by decide) n).mpr (by omega)

theorem drop_rlpString {content : Bytes} (h : content.length < 2 ^ 64) :
    (rlpString content).drop (stringHeaderLength (rlpString content)) = content := by
  rw [rlpString]
  by_cases hshort : content.length ≤ 55
  · have hfirst : (UInt8.ofNat (0x80 + content.length)).toNat
        = 0x80 + content.length := UInt8.toNat_ofNat_of_lt' (by show _ < 256; omega)
    rw [if_pos hshort, stringHeaderLength, hfirst, if_pos (by omega)]
    rfl
  · have hsize := lengthBytes_length_le h
    have hpos : 0 < (lengthBytes content.length).length := by
      rw [lengthBytes, List.length_map, List.length_reverse]
      refine List.length_pos_iff.mpr (Nat.digits_ne_nil_iff_ne_zero.mpr (by omega))
    have hfirst : (UInt8.ofNat (0xb7 + (lengthBytes content.length).length)).toNat
        = 0xb7 + (lengthBytes content.length).length :=
      UInt8.toNat_ofNat_of_lt' (by show _ < 256; omega)
    rw [if_neg hshort]
    simp only [stringHeaderLength, List.cons_append]
    rw [hfirst, if_neg (by omega), Nat.add_sub_cancel_left, Nat.add_comm 1,
      List.drop_succ_cons, List.drop_left]

/-- No string of typed content is itself a type byte and a payload. -/
theorem isTyped_rlpString {content : Bytes} (h : content.length < 2 ^ 64) :
    isTyped (rlpString content) = false := by
  have hfirst : ∀ n, n < 0x80 → ∀ rest : Bytes,
      isTyped (UInt8.ofNat (0x80 + n) :: rest) = false := by
    intro n hn rest
    have hto : (UInt8.ofNat (0x80 + n)).toNat = 0x80 + n :=
      UInt8.toNat_ofNat_of_lt' (by show _ < 256; omega)
    cases rest with
    | nil => rfl
    | cons x xs =>
        rw [isTyped, decide_eq_false_iff_not, UInt8.lt_iff_toNat_lt, hto]
        show ¬ 0x80 + n < 128
        omega
  rw [rlpString]
  by_cases hshort : content.length ≤ 55
  · rw [if_pos hshort]
    exact hfirst _ (by omega) _
  · have hsize := lengthBytes_length_le h
    rw [if_neg hshort]
    have := hfirst (0x37 + (lengthBytes content.length).length) (by omega)
      (lengthBytes content.length ++ content)
    rwa [← Nat.add_assoc] at this

def typedExternals : Externals Bytes :=
  { plainExternals with decodeTransaction := decodeBoth }

theorem typedExternals_decodesBoth : DecodesBoth typedExternals where
  bare := by
    intro tx htyped hlen
    have htyped : isTyped tx = true := htyped
    have hlen : tx.length < 2 ^ 64 := hlen
    show decodeBoth tx = some tx
    have hcontent : (tx.drop (stringHeaderLength tx)).length < 2 ^ 64 := by
      rw [List.length_drop]
      omega
    have hbare : ¬ (isTyped (tx.drop (stringHeaderLength tx)) ∧
        rlpString (tx.drop (stringHeaderLength tx)) = tx) := by
      rintro ⟨-, hstring⟩
      rw [← hstring, isTyped_rlpString hcontent] at htyped
      cases htyped
    have hne : tx ≠ [] := by
      rintro rfl
      cases htyped
    simp only [decodeBoth, if_neg hbare, if_neg hne]
  wrapped := by
    intro tx htyped hlen
    have hlen : tx.length < 2 ^ 64 := hlen
    show decodeBoth (rlpString tx) = some tx
    rw [decodeBoth, drop_rlpString hlen]
    exact if_pos ⟨htyped, rfl⟩

theorem typedExternals_lawful : typedExternals.Lawful where
  mapping_genesis := plainExternals_lawful.mapping_genesis
  mapping_num := plainExternals_lawful.mapping_num
  nonce_version := plainExternals_lawful.nonce_version
  prepared_number := plainExternals_lawful.prepared_number
  prepared_timestamp := plainExternals_lawful.prepared_timestamp
  prepared_nonce := plainExternals_lawful.prepared_nonce
  prepared_baseFee := plainExternals_lawful.prepared_baseFee
  prepared_prevRandao := plainExternals_lawful.prepared_prevRandao

def typedEnv : Env Bytes :=
  { plainEnv with libs := typedExternals }

theorem typedEnv_loaded (evmLib₀ : Nat) :
    Loaded typedExternals (storedData [plainGenesis]) none plainGenesis typedEnv
      (initialState plainGenesis evmLib₀) :=
  loaded_of_storedData typedExternals_lawful
    (by intro b hb; rw [List.mem_singleton.mp hb]; rfl) rfl rfl
    ⟨by decide, by decide⟩ evmLib₀

/-- Native block 4 with one typed transaction, in a given form. -/
def typedFour (rlpx : Bytes) : NativeBlock :=
  plainNative 4 0 0 23 1 [plainPayload 0 0 rlpx]

/-- Up to native block 3, the first of EVM block 2. -/
def typedThree : List NativeBlock :=
  [plainNative 2 0 0 21 1 [], plainNative 3 0 0 22 1 []]

/-- Native block 4 is accepted in either form, and another native block 4 forks
    off its parent. -/
theorem typedFour_accepted (rlpx : Bytes)
    (hcheck : checkRun (nativeBlocksHandler typedEnv) (Distinct typedEnv)
      (initialState plainGenesis 0) (typedThree ++ [typedFour rlpx]) = true)
    (hnew : (feed (nativeBlocksHandler typedEnv) (initialState plainGenesis 0)
      (typedThree ++ [typedFour rlpx])).map (fun s =>
        (decide (Dated typedEnv s (plainNative 4 1 0 23 1 [])),
          isCached s (nativeId 4 1))) = .ok (true, false)) :
    ∃ s s', Reach (nativeBlocksHandler typedEnv) (Distinct typedEnv)
        (initialState plainGenesis 0) typedThree s ∧
      Distinct typedEnv s (typedFour rlpx) ∧
      Reach (nativeBlocksHandler typedEnv) (Distinct typedEnv)
        (initialState plainGenesis 0) (typedThree ++ [typedFour rlpx]) s' ∧
      Joined typedEnv s (typedFour rlpx) s s' ∧
      ForksOff typedEnv s' (typedFour rlpx) (plainNative 4 1 0 23 1 []) := by
  obtain ⟨s', hs'⟩ := exists_reach hcheck
  obtain ⟨s, hs, hadm, hstep⟩ := hs'.last
  have hhead : s.nativeBlocks.head? = some (plainNative 3 0 0 22 1 []) :=
    hs.eval (f := fun s => s.nativeBlocks.head?) (by decide +kernel)
  have hnew := hs'.eval (f := fun s =>
    (decide (Dated typedEnv s (plainNative 4 1 0 23 1 [])),
      isCached s (nativeId 4 1))) hnew
  obtain ⟨hdated, hfresh⟩ := Prod.mk.inj hnew
  refine ⟨s, s', hs, hadm, hs', ⟨link_of_onTop ?_, ?_, hstep⟩,
    ⟨of_decide_eq_true hdated, rfl, rfl, hfresh⟩⟩
  · intro back hback
    rw [hhead] at hback
    obtain rfl := Option.some.inj hback
    rfl
  · intro back hback
    rw [hhead] at hback
    obtain rfl := Option.some.inj hback
    show typedEnv.timestampToEvmBlockNum 11000000
      = typedEnv.timestampToEvmBlockNum 11500000
    decide

theorem rollback_undoes_typedFour :
    ∃ s s', Joined typedEnv s (typedFour [2, 7]) s s' ∧
      TakenBack typedEnv s (typedFour [2, 7]) s' (plainNative 4 1 0 23 1 []) := by
  obtain ⟨s, s', hs, hb, -, hacc, hforks⟩ :=
    typedFour_accepted [2, 7] (by decide +kernel) (by decide +kernel)
  refine ⟨s, s', hacc,
    (rollback_undoes_iff (typedEnv_loaded 0) hs hb hacc hforks).mpr ?_⟩
  intro act hact
  obtain rfl := List.mem_singleton.mp hact
  have hpayload : deserializeTx typedEnv
      { ordinal := 1
        receiver := Name.ofChars ['e', 'v', 'm']
        account := Name.ofChars ['e', 'v', 'm']
        name := evmtxN
        data := plainPayload 0 0 [2, 7] } = .ok (.v1 0 [2, 7] 0) := rfl
  have hencode : typedEnv.libs.encode ([2, 7] : Bytes) = [2, 7] := rfl
  exact recoverable_bare typedExternals_decodesBoth hpayload (by decide)
    (by decide) hencode.symm

/-- **The wrapped form cannot be undone**: the same transaction is accepted in an
    RLP string, and the fork off its block's parent raises an exception. -/
theorem not_undone_wrappedFour :
    DecodesBoth typedEnv.libs ∧
    Loaded typedExternals (storedData [plainGenesis]) none plainGenesis typedEnv
      (initialState plainGenesis 0) ∧
    ∃ s s', Reach (nativeBlocksHandler typedEnv) (Distinct typedEnv)
        (initialState plainGenesis 0) typedThree s ∧
      Distinct typedEnv s (typedFour (rlpString [2, 7])) ∧
      Joined typedEnv s (typedFour (rlpString [2, 7])) s s' ∧
      ForksOff typedEnv s' (typedFour (rlpString [2, 7]))
        (plainNative 4 1 0 23 1 []) ∧
      nativeBlocksHandler typedEnv s' (plainNative 4 1 0 23 1 [])
        = .error (.runtimeError "Unable to remove transaction") ∧
      ¬ TakenBack typedEnv s (typedFour (rlpString [2, 7])) s'
        (plainNative 4 1 0 23 1 []) := by
  refine ⟨typedExternals_decodesBoth, typedEnv_loaded 0, ?_⟩
  obtain ⟨s, s', hs, hb, hs', hacc, hforks⟩ :=
    typedFour_accepted (rlpString [2, 7]) (by decide +kernel)
      (by decide +kernel)
  have hlink : linkNativeBlock typedEnv s' (plainNative 4 1 0 23 1 [])
      = .error (.runtimeError "Unable to remove transaction") :=
    hs'.eval (f := fun s' => linkNativeBlock typedEnv s' (plainNative 4 1 0 23 1 []))
      (by decide +kernel)
  have hstep : nativeBlocksHandler typedEnv s' (plainNative 4 1 0 23 1 [])
      = .error (.runtimeError "Unable to remove transaction") := by
    rw [nativeBlocksHandler, if_neg hforks.dated.not_before, hlink]
    rfl
  refine ⟨s, s', hs, hb, hacc, hforks, hstep, ?_⟩
  rintro ⟨t', ht', -⟩
  rw [hlink] at ht'
  cases ht'

end BlockConversion
