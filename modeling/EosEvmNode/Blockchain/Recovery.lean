import EosEvmNode.Blockchain.EngineCalls
import EosEvmNode.Engine.StartBlock

/-! # Recovery — which block a restart begins with

    A committed `verify_chain` leaves the chain of the block inserted last and the LIB
    stored before it.  The next start takes the last EVM block with a native block id
    at or below that LIB.  Nothing undoes what it begins with, so this block has to be
    final: all native blocks of its second are irreversible, and all of them are in it.

    The converter may be ahead of the engine.  The LIB it answers with then belongs to
    a log of which the engine has not seen the end, and a block that waits may replace
    one below that LIB.

    That the stored LIB is sound is not shown again: a run of the process is one of the
    node that stores it. -/

namespace Blockchain.EngineCalls

open Channels Silkworm Engine Runs BlockConversion NumberedLog

variable {Tx : Type}

/-- What a start finds after some `verify_chain` has been committed: from the start
    block of that run on, the canonical chain of the block inserted before it, and the
    LIB stored with it. -/
def Committed (start : Nat) (calls : List (EngineCall Tx)) (db : ChainData Tx) : Prop :=
  ∃ hash v newBlock rest,
    .verifyChain hash :: .writeLib v :: .insertBlock newBlock :: rest <:+ calls ∧
      db.storedEvmLib = some v ∧
      getHeadCanonicalHeader db = some newBlock.header ∧
      ∀ k, start ≤ k → ∀ header, db.readCanonicalHeader k = some header →
        ∃ x ∈ view blockNumber (newBlock :: inserted rest),
          x.header = header

/-- The EVM block ends with `nb`, an irreversible block of the branch: whatever comes
    after `nb` belongs to a later EVM block. -/
structure EndsWith (E : Env Tx) (c : NativeChain) (header : BlockHeader)
    (nb : NativeBlock) : Prop where
  mem : nb ∈ c.branch
  id : header.prevRandao = nb.id
  number : E.evmNum nb = header.number
  irreversible : ∃ lib ∈ c.lib, nb.blockNum ≤ lib
  later : ∀ other ∈ c.branch, nb.blockNum < other.blockNum →
    header.number < E.evmNum other

/-- The EVM block that is handled next, with what waits behind it. -/
def nextEvm : List (Message Tx) → Option (Block Tx × List (Message Tx))
  | .evm newBlock :: rest => some (newBlock, rest)
  | _ => none

/-- **The condition**: where the LIB is stored, a LIB that is not below the restored
    native block has been reported, and no EVM block that waits replaces the inserted
    one or one below it, up to the LIB. -/
def Settled (startBlock : Block Tx) (p : Process Tx) : Event → Prop
  | .receive _ => True
  | .run _ => ∀ next ∈ nextEvm p.queue,
      (p.blockCount + 1) % 2 ^ 64 % 5000 = 0 ∨ next.1.irreversible = false →
        (∃ lib ∈ p.chain.lib, (restoredNativeBlock startBlock).blockNum ≤ lib) ∧
        ∀ e ∈ waiting next.2,
          min p.converter.evmLib next.1.header.number < e.header.number

instance (startBlock : Block Tx) (p : Process Tx) :
    (event : Event) → Decidable (Settled startBlock p event)
  | .receive _ => inferInstanceAs (Decidable True)
  | .run _ => inferInstanceAs (Decidable (∀ next ∈ nextEvm p.queue,
      (p.blockCount + 1) % 2 ^ 64 % 5000 = 0 ∨ next.1.irreversible = false →
        (∃ lib ∈ p.chain.lib, (restoredNativeBlock startBlock).blockNum ≤ lib) ∧
        ∀ e ∈ waiting next.2,
          min p.converter.evmLib next.1.header.number < e.header.number))

/-! ## The node that stores the LIB -/

/-- The values stored under `kLibProcessed`, newest first. -/
def written : List (EngineCall Tx) → List Nat
  | [] => []
  | .insertBlock _ :: older => written older
  | .writeLib v :: older => v :: written older
  | .verifyChain _ :: older => written older

theorem mem_written {v : Nat} {calls : List (EngineCall Tx)} (h : .writeLib v ∈ calls) :
    v ∈ written calls := by
  induction calls with
  | nil => cases h
  | cons call older ih =>
      cases call with
      | insertBlock e => exact ih (List.mem_of_ne_of_mem (by rintro ⟨⟩) h)
      | verifyChain hash => exact ih (List.mem_of_ne_of_mem (by rintro ⟨⟩) h)
      | writeLib w =>
          rcases List.mem_cons.mp h with heq | hmem
          · rw [EngineCall.writeLib.inj heq]
            exact List.mem_cons_self
          · exact List.mem_cons_of_mem _ (ih hmem)

/-- The same plugins, and the store that the calls have written. -/
structure Process.Mirrors (p : Process Tx) (m : Blockchain.Node Tx) : Prop where
  converter : m.converter = p.converter
  chain : m.chain = p.chain
  stored : m.store.stored = written p.calls
  /-- An application that has quit handles nothing more. -/
  running : p.running = true → m.queue = p.queue ∧ m.store.blockCount = p.blockCount

section Mirrors

variable {E : Env Tx} {startBlock : Block Tx} {evmLib₀ : Nat} {p q : Process Tx}
  {m : Blockchain.Node Tx} {event : Event}

/-- The handler of an EVM block stores what the one of the other node stores when no
    call throws, or `verify_chain` does; or it stores nothing, and quits. -/
theorem evmBlocksHandler_store (E : Env Tx) (evmLib : Nat) (ending : Ending)
    (newBlock : Block Tx) {store : Store} {calls : List (EngineCall Tx)}
    (hstored : store.stored = written calls) :
    ((evmBlocksHandler E evmLib store.blockCount ending newBlock).running = false ∧
      store.stored = written
        ((evmBlocksHandler E evmLib store.blockCount ending newBlock).calls ++ calls)) ∨
    ∃ o, (Blockchain.evmBlocksHandler evmLib store o newBlock).stored = written
        ((evmBlocksHandler E evmLib store.blockCount ending newBlock).calls ++ calls) ∧
      ((evmBlocksHandler E evmLib store.blockCount ending newBlock).running = true →
        (Blockchain.evmBlocksHandler evmLib store o newBlock).blockCount
          = (evmBlocksHandler E evmLib store.blockCount ending newBlock).blockCount) := by
  have hwrites : ∀ o, o ≠ Outcome.insertThrows → (store.blockCount + 1) % 2 ^ 64 % 5000 = 0 ∨
      newBlock.irreversible = false →
      Blockchain.evmBlocksHandler evmLib store o newBlock
        = { blockCount := if o = .verifyThrows then (store.blockCount + 1) % 2 ^ 64 else 0
            stored := evmLib :: store.stored } := by
    intro o ho hdue
    rw [Blockchain.evmBlocksHandler, if_neg ho]
    exact if_pos hdue
  rcases evmBlocksHandler_cases E evmLib store.blockCount ending newBlock with
    ⟨count, heq⟩ | ⟨count, heq⟩ | ⟨hdue, count, heq⟩ | ⟨hcount, hirr, heq⟩ | ⟨hdue, heq⟩ <;>
    rw [heq]
  · exact Or.inl ⟨rfl, hstored⟩
  · exact Or.inl ⟨rfl, hstored⟩
  · refine Or.inr ⟨.verifyThrows, ?_, fun hgoes => by cases hgoes⟩
    rw [hwrites _ (by decide) hdue]
    exact congrArg _ hstored
  · refine Or.inr ⟨.returns, ?_⟩
    have hidle : ¬ ((store.blockCount + 1) % 2 ^ 64 % 5000 = 0 ∨
        newBlock.irreversible = false) := by
      rw [hirr]
      simpa using hcount
    rw [Blockchain.evmBlocksHandler, if_neg (by decide)]
    rw [if_neg hidle]
    exact ⟨hstored, fun _ => rfl⟩
  · refine Or.inr ⟨.returns, ?_⟩
    rw [hwrites _ (by decide) hdue]
    exact ⟨congrArg _ hstored, fun _ => rfl⟩

/-- A step is one of the other node, under its condition, or none. -/
theorem Process.Mirrors.step (h : p.Mirrors m) (hd : Delivers E p event)
    (hc : Settled startBlock p event) (hstep : Process.step E p event = .ok q) :
    q.Mirrors m ∨ ∃ e m', (Blockchain.Delivers E m e ∧ LibKnown startBlock m e) ∧
      Blockchain.Node.step E m e = .ok m' ∧ q.Mirrors m' := by
  obtain ⟨hconverter, hchain, hstored, hqueue⟩ := h
  cases changes_of_step hstep with
  | idle => exact Or.inl ⟨hconverter, hchain, hstored, hqueue⟩
  | receive b hrunning =>
      obtain ⟨hq, hcount⟩ := hqueue hrunning
      exact Or.inr ⟨.receive b, _, ⟨trivial, trivial⟩, rfl, hconverter, hchain, hstored,
        fun _ => ⟨by rw [hq], hcount⟩⟩
  | @native _ b rest s hrunning hhead hs =>
      obtain ⟨hq, hcount⟩ := hqueue hrunning
      rw [hhead] at hq
      refine Or.inr ⟨.run .returns, { m with
        converter := s
        chain := m.chain.deliver b
        queue := rest ++ (publishedSince p.converter s).map .evm }, ⟨?_, ?_⟩, ?_, rfl, ?_,
        hstored, fun _ => ⟨rfl, hcount⟩⟩
      · simp only [Blockchain.Delivers, hq, hconverter, hchain]
        exact hd.delivery hhead
      · simp only [LibKnown, hq]
      · simp only [Blockchain.Node.step, hq, hconverter, hs]
        rfl
      · rw [hchain]
  | thrown hrunning hhead =>
      exact Or.inl ⟨hconverter, hchain, hstored, fun hgoes => by cases hgoes⟩
  | @evm ending newBlock rest hrunning hhead =>
      obtain ⟨hq, hcount⟩ := hqueue hrunning
      rw [hhead] at hq
      have hhandled := evmBlocksHandler_store E p.converter.evmLib ending newBlock hstored
      rw [hcount] at hhandled
      rcases hhandled with ⟨hquits, hsame⟩ | ⟨o, hsame, hgoes⟩
      · refine Or.inl ⟨hconverter, hchain, hsame, fun hrun => ?_⟩
        rw [hquits] at hrun
        cases hrun
      · refine Or.inr ⟨.run o, { m with
          queue := rest
          store := Blockchain.evmBlocksHandler m.converter.evmLib m.store o newBlock },
          ⟨?_, ?_⟩, ?_, hconverter, hchain, ?_, ?_⟩
        · simp only [Blockchain.Delivers, hq]
        · simp only [LibKnown, hq]
          intro hstores
          rw [storesLib, Bool.and_eq_true, Bool.or_eq_true, Bool.not_eq_true', hcount]
            at hstores
          rw [hchain]
          exact (hc (newBlock, rest) (by rw [hhead]; rfl)
            (hstores.2.imp_left of_decide_eq_true)).1
        · simp only [Blockchain.Node.step, hq]
        · rw [hconverter]
          exact hsame
        · intro hrun
          rw [hconverter]
          exact ⟨rfl, hgoes hrun⟩

/-- **A run of the process is one of the node that stores the LIB**, so it has the
    converter's chain and the stored values of a sound node. -/
theorem sound_of_process (hE : Started E startBlock) {events : List Event}
    (hrun : Reach (Process.step E)
      (fun p event => Delivers E p event ∧ Settled startBlock p event)
      (Process.start startBlock (initialState startBlock evmLib₀)) events p) :
    Kept E startBlock evmLib₀ p.converter p.chain ∧
      ∀ v ∈ written p.calls, Recorded E p.chain v := by
  have hstart : (Process.start startBlock (initialState startBlock evmLib₀)).Mirrors
      (Blockchain.Node.start startBlock (initialState startBlock evmLib₀)) :=
    ⟨rfl, rfl, rfl, fun _ => ⟨rfl, rfl⟩⟩
  obtain ⟨es, m, hm, hmirrors⟩ := hrun.simulate hstart
    (fun _ _ _ _ hR hadm hstep => hR.step hadm.1 hadm.2 hstep)
  obtain ⟨hkept, hstored⟩ := sound_reach hE hm
  rw [hmirrors.converter, hmirrors.chain] at hkept
  rw [hmirrors.stored, hmirrors.chain] at hstored
  exact ⟨hkept, hstored⟩

end Mirrors

/-! ## The invariant -/

/-- What has been verified stays: up to the LIB stored with it, the chain is that of
    the whole log. -/
def Stays (published : List (Block Tx)) (calls : List (EngineCall Tx)) : Prop :=
  ∀ hash v newBlock rest,
    .verifyChain hash :: .writeLib v :: .insertBlock newBlock :: rest <:+ calls →
      ∀ x ∈ view blockNumber (newBlock :: inserted rest), x.header.number ≤ v →
        x ∈ view blockNumber published

section Stays

variable {E : Env Tx} {startBlock : Block Tx} {evmLib₀ : Nat} {p q : Process Tx}
  {event : Event} {c : NativeChain} {published : List (Block Tx)}
  {calls older : List (EngineCall Tx)}

/-- What is published for a native block lies above every recorded number. -/
theorem Recorded.published_above (hE : Started E startBlock) {s s' : State Tx}
    {b : NativeBlock} {v : Nat} (hw : Window E startBlock s c) (hv : Recorded E c v)
    (hb : Delivery E (s, c) b) (hs : nativeBlocksHandler E s b = .ok s') :
    ∃ newer, s'.published = newer ++ s.published ∧ ∀ x ∈ newer, v < blockNumber x := by
  rcases hb with hdup | ⟨parent, hb⟩
  · rw [hdup.handler_eq] at hs
    rw [← Except.ok.inj hs]
    exact ⟨[], rfl, fun x hx => (by cases hx)⟩
  · obtain ⟨it, hit, hlib, hnum⟩ := hv
    obtain ⟨newer, hpub, hnewer⟩ := hw.republished_above hE hit hlib hb hs
    refine ⟨newer, hpub, ?_⟩
    intro x hx
    have := hnewer x hx
    omega

/-- Calls that verify nothing. -/
theorem Stays.append (h : Stays published older) (hnone : ∀ hash, .verifyChain hash ∉ calls) :
    Stays published (calls ++ older) :=
  fun hash v newBlock rest hsuf => h hash v newBlock rest (verify_suffix_append calls hnone hsuf)

/-- A native block leaves what has been verified alone. -/
theorem Stays.native (hE : Started E startBlock) {s : State Tx}
    (hw : Window E startBlock s c) (hwritten : ∀ v ∈ written calls, Recorded E c v)
    (h : Stays s.published calls) {b : NativeBlock} {s' : State Tx}
    (hb : Delivery E (s, c) b) (hs : nativeBlocksHandler E s b = .ok s') :
    Stays s'.published calls := by
  intro hash v newBlock rest hsuf x hx hle
  have hv : Recorded E c v := hwritten v (mem_written (hsuf.subset
    (List.mem_cons_of_mem _ List.mem_cons_self)))
  obtain ⟨newer, hpub, hnewer⟩ := Recorded.published_above hE hw hv hb hs
  rw [hpub]
  refine (mem_view_append ?_).mpr (h hash v newBlock rest hsuf x hx hle)
  intro e he
  have := hnewer e he
  show x.header.number < blockNumber e
  omega

/-- Where the condition holds, what is verified now is the chain of the whole log. -/
theorem Stays.verify (h : Stays published calls) {waits : List (Block Tx)}
    {newBlock : Block Tx} {v : Nat} {hash : Bytes32}
    (hpub : published = waits.reverse ++ newBlock :: inserted calls)
    (hwait : ∀ e ∈ waits, min v newBlock.header.number < e.header.number) :
    Stays published (.verifyChain hash :: .writeLib v :: .insertBlock newBlock :: calls) := by
  intro hash v block older hsuf
  rcases List.suffix_cons_iff.mp hsuf with heq | hsuf
  · simp only [List.cons.injEq, EngineCall.writeLib.injEq,
      EngineCall.insertBlock.injEq] at heq
    obtain ⟨-, rfl, rfl, rfl⟩ := heq
    intro x hx hle
    -- no block of the chain is numbered above the inserted one
    have hhead : x.header.number ≤ block.header.number := by
      rcases mem_view_cons.mp hx with rfl | ⟨-, hlt⟩
      · exact Nat.le_refl _
      · exact Nat.le_of_lt hlt
    rw [hpub]
    refine (mem_view_append ?_).mpr hx
    intro e he
    have := hwait e (List.mem_reverse.mp he)
    show x.header.number < e.header.number
    omega
  · exact h hash v block older
      (verify_suffix_append [_, _] (by simp) hsuf)

end Stays

/-! ## Runs -/

/-- The engine's share of the process, and what a start would find. -/
structure Recoverable (E : Env Tx) (startBlock : Block Tx) (p : Process Tx) : Prop where
  replicated : Replicated E startBlock p.converter p.chain
  fifo : Fifo p
  stays : Stays p.converter.published p.calls

section Runs

variable {E : Env Tx} {startBlock : Block Tx} {evmLib₀ : Nat} {p q : Process Tx}
  {event : Event}

theorem recoverable_start (hE : Started E startBlock) (evmLib₀ : Nat) :
    Recoverable E startBlock (Process.start startBlock (initialState startBlock evmLib₀)) where
  replicated := replicated_start hE evmLib₀
  fifo := fifo_start startBlock rfl
  stays := fun _ _ _ _ hsuf => absurd (hsuf.subset List.mem_cons_self) List.not_mem_nil

theorem Recoverable.step (hE : Started E startBlock) (h : Recoverable E startBlock p)
    (hkept : Kept E startBlock evmLib₀ p.converter p.chain)
    (hwritten : ∀ v ∈ written p.calls, Recorded E p.chain v) (hd : Delivers E p event)
    (hc : Settled startBlock p event) (hstep : Process.step E p event = .ok q) :
    Recoverable E startBlock q := by
  have hfifo := h.fifo.step hstep
  have hreplicated := replicated_step hE h.replicated hd hstep
  refine ⟨hreplicated, hfifo, ?_⟩
  cases changes_of_step hstep with
  | idle => exact h.stays
  | receive b hrunning => exact h.stays
  | native hrunning hqueue hs =>
      exact h.stays.native hE hkept.window hwritten (hd.delivery hqueue) hs
  | thrown hrunning hqueue => exact h.stays
  | @evm ending newBlock rest hrunning hqueue =>
      show Stays p.converter.published
        ((evmBlocksHandler E p.converter.evmLib p.blockCount ending newBlock).calls
          ++ p.calls)
      rcases evmBlocksHandler_cases E p.converter.evmLib p.blockCount ending newBlock with
        ⟨count, heq⟩ | ⟨count, heq⟩ | ⟨-, count, heq⟩ | ⟨-, -, heq⟩ | ⟨hdue, heq⟩
      · rw [heq]
        exact h.stays
      · rw [heq]
        exact h.stays.append (by simp)
      · rw [heq]
        exact h.stays.append (by simp)
      · rw [heq]
        exact h.stays.append (by simp)
      · rw [heq]
        obtain ⟨-, hwait⟩ := hc (newBlock, rest) (by rw [hqueue]; rfl) hdue
        refine h.stays.verify ?_ hwait
        rw [h.fifo.waits hrunning, hqueue]
        show (newBlock :: waiting rest).reverse ++ _ = _
        rw [List.reverse_cons, List.append_assoc]
        rfl

theorem recoverable_reach (hE : Started E startBlock) {events : List Event}
    (hrun : Reach (Process.step E)
      (fun p event => Delivers E p event ∧ Settled startBlock p event)
      (Process.start startBlock (initialState startBlock evmLib₀)) events p) :
    Recoverable E startBlock p := by
  induction hrun with
  | start => exact recoverable_start hE evmLib₀
  | step hrun hadm hstep ih =>
      obtain ⟨hkept, hwritten⟩ := sound_of_process hE hrun
      exact ih.step hE hkept hwritten hadm.1 hadm.2 hstep

end Runs

/-! ## The start block of the next run -/

section NextStart

variable {E : Env Tx} {startBlock : Block Tx} {evmLib₀ : Nat} {p : Process Tx}
  {c : NativeChain}

/-- The last native block of a second is the newest one. -/
theorem le_last_native (hc : c.Wf startBlock) {k : Nat} {nb other : NativeBlock}
    (hnb : (nativesOf E k c.branch).getLast? = some nb)
    (hother : other ∈ nativesOf E k c.branch) : other.blockNum ≤ nb.blockNum := by
  have hpair : (nativesOf E k c.branch).Pairwise (fun x y => x.blockNum < y.blockNum) := by
    refine List.Pairwise.filter _ (List.pairwise_reverse.mpr ?_)
    exact hc.pairwise.imp fun h => h.1
  obtain ⟨older, hlist⟩ := List.getLast?_eq_some_iff.mp hnb
  rw [hlist] at hpair hother
  rcases List.mem_append.mp hother with hmem | hmem
  · exact Nat.le_of_lt ((List.pairwise_append.mp hpair).2.2 other hmem nb
      List.mem_cons_self)
  · rw [List.mem_singleton.mp hmem]

/-- An EVM block with a native block id, up to a recorded number, ends with an
    irreversible block. -/
theorem Reflects.endsWith (hE : Started E startBlock) {s : State Tx} {v : Nat}
    (hc : c.Wf startBlock) (hsound : SoundLib E s c v) {x : Block Tx}
    (h : Reflects E startBlock c.branch x) (hle : x.header.number ≤ v)
    (hid : x.header.prevRandao ≠ 0) : ∃ nb, EndsWith E c x.header nb := by
  obtain ⟨nb, hnb, hbound⟩ := h.bounded hid
  obtain ⟨hmem, hnum⟩ := mem_nativesOf.mp (List.mem_of_getLast? hnb)
  obtain ⟨lib, hlib, -⟩ := hsound.complete
  refine ⟨nb, hmem, hbound, hnum,
    ⟨lib, hlib, hsound.irreversible lib hlib nb hmem (by omega)⟩, ?_⟩
  intro other hother hlater
  have hmono := evmNum_mono hE (hc.restored_le hmem)
    (hc.timestamp_le hmem hother (Nat.le_of_lt hlater))
  by_contra hsame
  have hin : other ∈ nativesOf E x.header.number c.branch :=
    mem_nativesOf.mpr ⟨hother, by omega⟩
  have := le_last_native hc hnb hin
  omega

end NextStart

/-- **A restart begins with a final block**: whatever of the run's `verify_chain` calls
    has been committed last, the block the next start takes lies no higher than the
    start block of this run, or it ends with an irreversible block of the native
    branch, and all later native blocks are still to be converted. -/
theorem restart_final {X : Externals Tx} {db : ChainData Tx} {height : Option Nat}
    {startBlock : Block Tx} {E : Env Tx} {s₀ : State Tx}
    (hload : Loaded X db height startBlock E s₀) {events : List Event} {p : Process Tx}
    (hrun : Reach (Process.step E)
      (fun p event => Delivers E p event ∧ Settled startBlock p event)
      (Process.start startBlock s₀) events p)
    {db' : ChainData Tx} (hdb : db'.Canonical)
    (hleft : Committed startBlock.header.number p.calls db') {next : Block Tx}
    (hnext : getCanonicalBlockAtHeight db' none = some next) :
    next.header.number ≤ startBlock.header.number ∨
      ∃ nb, EndsWith E p.chain next.header nb := by
  have hE := hload.started
  obtain ⟨evmLib₀, rfl⟩ := hload.initial
  have h := recoverable_reach hE hrun
  obtain ⟨hkept, hwritten⟩ := sound_of_process hE hrun
  obtain ⟨hash, v, newBlock, rest, hsuf, hlib, hhead, hread⟩ := hleft
  have htarget : startTarget db' none = some (min v newBlock.header.number) := by
    rw [startTarget, hlib, hhead]
    rfl
  obtain ⟨hle, hblock, -, hid⟩ := startBlock_spec hdb htarget hnext
  by_cases hlow : next.header.number ≤ startBlock.header.number
  · exact Or.inl hlow
  · right
    obtain ⟨x, hx, hheader⟩ := hread next.header.number (by omega) next.header
      (hdb.block_header _ _ hblock)
    have hview := h.stays hash v newBlock rest hsuf
    have hsound := hkept.sound hE (hwritten v (mem_written
      (hsuf.subset (List.mem_cons_of_mem _ List.mem_cons_self))))
    have hxle : x.header.number ≤ v := by
      rw [hheader]
      omega
    obtain ⟨last, hlast⟩ : ∃ last, p.converter.evmBlocks.head? = some last := by
      obtain ⟨last, es, hevms⟩ :=
        List.exists_cons_of_ne_nil hkept.window.coherent.evms_ne
      exact ⟨last, by rw [hevms]; rfl⟩
    have hclosed := hsound.closed last hlast
    have hreflects := (h.replicated.view_reflects hlast).2 x (hview x hx hxle)
      (by rw [hheader]; omega) (by omega)
    have hids : x.header.prevRandao ≠ 0 := by
      rw [hheader]
      rcases hid with hid | hzero
      · exact hid
      · omega
    obtain ⟨nb, hnb⟩ := Reflects.endsWith hE hkept.window.chain hsound hreflects hxle hids
    rw [hheader] at hnb
    exact ⟨nb, hnb⟩

/-! ## The database after the last call -/

/-- The database that holds these blocks, newest first, and this LIB. -/
def storedAt (v : Nat) (blocks : List (Block Tx)) : ChainData Tx :=
  { storedData blocks with storedEvmLib := some v }

/-- What the last `verify_chain` leaves in an otherwise empty database. -/
def leftBy : List (EngineCall Tx) → ChainData Tx
  | .verifyChain _ :: .writeLib v :: .insertBlock newBlock :: rest =>
      storedAt v (view blockNumber (newBlock :: inserted rest))
  | _ :: older => leftBy older
  | [] => storedData []

theorem storedAt_canonical (v : Nat) (blocks : List (Block Tx)) :
    (storedAt v blocks).Canonical where
  header_number := (storedData_canonical blocks).header_number
  block_header := (storedData_canonical blocks).block_header

theorem leftBy_canonical (calls : List (EngineCall Tx)) : (leftBy calls).Canonical := by
  fun_induction leftBy calls with
  | case1 hash v newBlock rest => exact storedAt_canonical v _
  | case2 call older hne ih => exact ih
  | case3 => exact storedData_canonical []

/-- It is what a start may find. -/
theorem leftBy_committed {start : Nat} {calls : List (EngineCall Tx)} {v : Nat}
    (h : (leftBy calls).storedEvmLib = some v) : Committed start calls (leftBy calls) := by
  fun_induction leftBy calls with
  | case1 hash v' newBlock rest =>
      refine ⟨hash, v', newBlock, rest, List.suffix_refl _, rfl, ?_, ?_⟩
      · show ((newBlock :: _).find? (fun b => b.header.number = newBlock.header.number)).map
          _ = _
        rw [List.find?_cons_of_pos (by simp)]
        rfl
      · intro k _ header hread
        obtain ⟨x, hx, hheader⟩ := Option.map_eq_some_iff.mp hread
        exact ⟨x, List.mem_of_find?_eq_some hx, hheader⟩
  | case2 call older hne ih =>
      obtain ⟨hash, v', newBlock, rest, hsuf, hrest⟩ := ih h
      exact ⟨hash, v', newBlock, rest, hsuf.trans (List.suffix_cons _ _), hrest⟩
  | case3 => cases h

/-- Native block 4 reports LIB 3, and the LIB stored with EVM block 2 is 1. -/
def settledEvents : List Event :=
  [.receive (plainNative 2 0 0 21 1 []), .run .returns, .run .returns,
   .receive (plainNative 3 0 0 22 1 []), .run .returns, .run .returns,
   .receive (plainNative 4 0 0 24 3 []), .run .returns, .run .returns]

/-- The next start takes EVM block 1, which ends with native block 2. -/
theorem restart_final_settledEvents :
    ∃ p next nb, Reach (Process.step plainEnv)
        (fun p event => Delivers plainEnv p event ∧ Settled plainGenesis p event)
        (Process.start plainGenesis (initialState plainGenesis 0)) settledEvents p ∧
      getCanonicalBlockAtHeight (leftBy p.calls) none = some next ∧
      next.header.number = 1 ∧ EndsWith plainEnv p.chain next.header nb := by
  have hcheck : checkRun (Process.step plainEnv)
      (fun p event => Delivers plainEnv p event ∧ Settled plainGenesis p event)
      (Process.start plainGenesis (initialState plainGenesis 0)) settledEvents = true := by
    decide +kernel
  obtain ⟨p, hp⟩ := exists_reach hcheck
  have hlib : (leftBy p.calls).storedEvmLib = some 1 :=
    hp.eval (f := fun p => (leftBy p.calls).storedEvmLib) (by decide +kernel)
  have hnumber : (getCanonicalBlockAtHeight (leftBy p.calls) none).map blockNumber
      = some 1 :=
    hp.eval (f := fun p => (getCanonicalBlockAtHeight (leftBy p.calls) none).map blockNumber)
      (by decide +kernel)
  obtain ⟨next, hnext, hnum⟩ := Option.map_eq_some_iff.mp hnumber
  rcases restart_final (plainEnv_loaded 0) hp (leftBy_canonical _) (leftBy_committed hlib)
    hnext with hlow | ⟨nb, hnb⟩
  · have hone : next.header.number = 1 := hnum
    have hzero : next.header.number ≤ 0 := hlow
    omega
  · exact ⟨p, next, nb, hp, hnext, hnum, hnb⟩

/-- The queue holds a fork below native block 4, and the LIB that follows it, while the
    EVM block of native block 4 is published. -/
def overtakenEvents : List Event :=
  [.receive (plainNative 2 0 0 21 1 []), .run .returns, .run .returns,
   .receive (plainNative 3 0 0 22 1 []), .run .returns, .run .returns,
   .receive (plainNative 4 0 0 23 1 []), .receive (plainNative 5 0 0 24 1 []),
   .receive (plainNative 4 1 0 24 1 []), .receive (plainNative 5 1 1 26 4 []),
   .run .returns, .run .returns, .run .returns, .run .returns, .run .returns]

/-- **The condition is needed**: the engine still inserts EVM block 2 of the old fork
    when the LIB 2 of the new one is stored with it.  The next start takes this block,
    and its native block is not in the branch. -/
theorem not_final_overtakenEvents :
    ∃ p next, Reach (Process.step plainEnv) (Delivers plainEnv)
        (Process.start plainGenesis (initialState plainGenesis 0)) overtakenEvents p ∧
      getCanonicalBlockAtHeight (leftBy p.calls) none = some next ∧
      next.header.number = 2 ∧ ∀ nb ∈ p.chain.branch, next.header.prevRandao ≠ nb.id := by
  have hcheck : checkRun (Process.step plainEnv) (Delivers plainEnv)
      (Process.start plainGenesis (initialState plainGenesis 0)) overtakenEvents
        = true := by decide +kernel
  obtain ⟨p, hp⟩ := exists_reach hcheck
  have hnext : (getCanonicalBlockAtHeight (leftBy p.calls) none).map (fun next =>
      (blockNumber next, p.chain.branch.all (fun nb => next.header.prevRandao ≠ nb.id)))
        = some (2, true) :=
    hp.eval (f := fun p => (getCanonicalBlockAtHeight (leftBy p.calls) none).map
      (fun next => (blockNumber next,
        p.chain.branch.all (fun nb => next.header.prevRandao ≠ nb.id))))
      (by decide +kernel)
  obtain ⟨next, hnext, hpair⟩ := Option.map_eq_some_iff.mp hnext
  obtain ⟨hnum, hall⟩ := Prod.mk.inj hpair
  refine ⟨p, next, hp, hnext, hnum, ?_⟩
  intro nb hnb
  simpa using List.all_eq_true.mp hall nb hnb

end Blockchain.EngineCalls
