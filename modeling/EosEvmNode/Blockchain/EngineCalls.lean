import EosEvmNode.BlockConversion.Replica
import EosEvmNode.Blockchain.StoredLib

/-! # The calls of the execution engine

    What the engine does with its calls is not in this program; which calls it gets,
    and in which order, is.  The handler of an EVM block inserts it, and now and then
    stores the LIB and has the chain up to this block verified.

    The messages of both channels share one queue, so the engine is behind the
    converter by the EVM blocks that wait there.  The heart is that nothing else
    separates the two: the inserted blocks are an initial part of the published log,
    and inherit what is known of it. -/

namespace Blockchain.EngineCalls

open Channels Silkworm Engine Runs BlockConversion NumberedLog

variable {Tx : Type}

inductive EngineCall (Tx : Type) where
  | insertBlock (e : Block Tx)
  /-- `write_runtime_states_u64` under `kLibProcessed`. -/
  | writeLib (v : Nat)
  | verifyChain (hash : Bytes32)
  deriving DecidableEq

/-- How a call of the handler ends. -/
inductive Ending where
  | returns
  /-- The engine cannot be made or opened, or `insert_block` throws. -/
  | insertThrows
  | writeThrows
  | verifyThrows
  deriving DecidableEq, Repr

/-- What the handler leaves: the static counter, the calls that have returned, newest
    first, and whether the application goes on. -/
structure Handled (Tx : Type) where
  blockCount : Nat
  calls : List (EngineCall Tx)
  running : Bool

/-- The subscriber of the `evm_blocks` channel.  What is thrown is caught, and the
    application quits. -/
def evmBlocksHandler (E : Env Tx) (evmLib blockCount : Nat) (ending : Ending)
    (newBlock : Block Tx) : Handled Tx :=
  if ending = .insertThrows then ⟨blockCount, [], false⟩
  else
    let blockCount := (blockCount + 1) % 2 ^ 64
    if blockCount % 5000 = 0 ∨ newBlock.irreversible = false then
      match ending with
      | .writeThrows => ⟨blockCount, [.insertBlock newBlock], false⟩
      | .verifyThrows =>
          ⟨blockCount, [.writeLib evmLib, .insertBlock newBlock], false⟩
      | _ =>
          ⟨0, [.verifyChain (E.libs.hash newBlock.header), .writeLib evmLib,
            .insertBlock newBlock], true⟩
    else ⟨blockCount, [.insertBlock newBlock], true⟩

/-- Both plugins and the queue between them, the next message first, with the native
    chain as far as it has been handled. -/
structure Process (Tx : Type) where
  converter : State Tx
  chain : NativeChain
  queue : List (Message Tx)
  blockCount : Nat
  calls : List (EngineCall Tx)
  /-- Has no handler thrown? -/
  running : Bool

def Process.start (startBlock : Block Tx) (s₀ : State Tx) : Process Tx where
  converter := s₀
  chain := NativeChain.start startBlock
  queue := []
  blockCount := 0
  calls := []
  running := true

inductive Event where
  /-- The receiver publishes a native block. -/
  | receive (b : NativeBlock)
  /-- The handler of the next message runs. -/
  | run (ending : Ending)
  deriving DecidableEq

def Process.step (E : Env Tx) (p : Process Tx) : Event → Except Failure (Process Tx)
  | .receive b =>
      if p.running then .ok { p with queue := p.queue ++ [.native b] } else .ok p
  | .run ending =>
      if p.running then
        match p.queue with
        | [] => .ok p
        | .native b :: rest =>
            match nativeBlocksHandler E p.converter b with
            | .ok s =>
                .ok { p with
                  converter := s
                  chain := p.chain.deliver b
                  queue := rest ++ (publishedSince p.converter s).map .evm }
            -- the channel catches what is thrown, and quits
            | .error _ => .ok { p with queue := rest, running := false }
        | .evm newBlock :: rest =>
            let handled := evmBlocksHandler E p.converter.evmLib p.blockCount ending
              newBlock
            .ok { p with
              queue := rest
              blockCount := handled.blockCount
              calls := handled.calls ++ p.calls
              running := handled.running }
      else .ok p

/-! ## What a step can do -/

/-- What one event changes. -/
inductive Changes (E : Env Tx) (p : Process Tx) : Event → Process Tx → Prop where
  | idle {event : Event} : Changes E p event p
  | receive (b : NativeBlock) (hrunning : p.running = true) :
      Changes E p (.receive b) { p with queue := p.queue ++ [.native b] }
  | native {ending : Ending} {b : NativeBlock} {rest : List (Message Tx)} {s : State Tx}
      (hrunning : p.running = true) (hqueue : p.queue = .native b :: rest)
      (hs : nativeBlocksHandler E p.converter b = .ok s) :
      Changes E p (.run ending) { p with
        converter := s
        chain := p.chain.deliver b
        queue := rest ++ (publishedSince p.converter s).map .evm }
  | thrown {ending : Ending} {b : NativeBlock} {rest : List (Message Tx)}
      (hrunning : p.running = true) (hqueue : p.queue = .native b :: rest) :
      Changes E p (.run ending) { p with queue := rest, running := false }
  | evm {ending : Ending} {newBlock : Block Tx} {rest : List (Message Tx)}
      (hrunning : p.running = true) (hqueue : p.queue = .evm newBlock :: rest) :
      Changes E p (.run ending) { p with
        queue := rest
        blockCount :=
          (evmBlocksHandler E p.converter.evmLib p.blockCount ending newBlock).blockCount
        calls :=
          (evmBlocksHandler E p.converter.evmLib p.blockCount ending newBlock).calls
            ++ p.calls
        running :=
          (evmBlocksHandler E p.converter.evmLib p.blockCount ending newBlock).running }

theorem changes_of_step {E : Env Tx} {p q : Process Tx} {event : Event}
    (h : Process.step E p event = .ok q) : Changes E p event q := by
  cases event with
  | receive b =>
      rw [Process.step] at h
      by_cases hrunning : p.running = true
      · rw [if_pos hrunning] at h
        obtain rfl := Except.ok.inj h
        exact .receive b hrunning
      · rw [if_neg hrunning] at h
        obtain rfl := Except.ok.inj h
        exact .idle
  | run ending =>
      rw [Process.step] at h
      by_cases hrunning : p.running = true
      · rw [if_pos hrunning] at h
        cases hqueue : p.queue with
        | nil =>
            simp only [hqueue] at h
            obtain rfl := Except.ok.inj h
            exact .idle
        | cons message rest =>
            cases message with
            | native b =>
                cases hs : nativeBlocksHandler E p.converter b with
                | ok s =>
                    simp only [hqueue, hs] at h
                    obtain rfl := Except.ok.inj h
                    exact .native hrunning hqueue hs
                | error err =>
                    simp only [hqueue, hs] at h
                    obtain rfl := Except.ok.inj h
                    exact .thrown hrunning hqueue
            | evm newBlock =>
                simp only [hqueue] at h
                obtain rfl := Except.ok.inj h
                exact .evm hrunning hqueue
      · rw [if_neg hrunning] at h
        obtain rfl := Except.ok.inj h
        exact .idle

/-- What the handler can leave: nothing; the inserted block, when nothing is due or a
    call throws; or all three calls, and the counter at zero. -/
theorem evmBlocksHandler_cases (E : Env Tx) (evmLib blockCount : Nat) (ending : Ending)
    (newBlock : Block Tx) :
    (∃ count, evmBlocksHandler E evmLib blockCount ending newBlock
        = ⟨count, [], false⟩) ∨
    (∃ count, evmBlocksHandler E evmLib blockCount ending newBlock
        = ⟨count, [.insertBlock newBlock], false⟩) ∨
    (((blockCount + 1) % 2 ^ 64 % 5000 = 0 ∨ newBlock.irreversible = false) ∧
      ∃ count, evmBlocksHandler E evmLib blockCount ending newBlock
        = ⟨count, [.writeLib evmLib, .insertBlock newBlock], false⟩) ∨
    ((blockCount + 1) % 2 ^ 64 % 5000 ≠ 0 ∧ newBlock.irreversible = true ∧
      evmBlocksHandler E evmLib blockCount ending newBlock
        = ⟨(blockCount + 1) % 2 ^ 64, [.insertBlock newBlock], true⟩) ∨
    ((blockCount + 1) % 2 ^ 64 % 5000 = 0 ∨ newBlock.irreversible = false) ∧
      evmBlocksHandler E evmLib blockCount ending newBlock
        = ⟨0, [.verifyChain (E.libs.hash newBlock.header), .writeLib evmLib,
            .insertBlock newBlock], true⟩ := by
  unfold evmBlocksHandler
  by_cases hinsert : ending = .insertThrows
  · rw [if_pos hinsert]
    exact Or.inl ⟨_, rfl⟩
  · rw [if_neg hinsert]
    by_cases hdue : (blockCount + 1) % 2 ^ 64 % 5000 = 0 ∨ newBlock.irreversible = false
    · simp only [if_pos hdue]
      cases ending with
      | returns => exact Or.inr (Or.inr (Or.inr (Or.inr ⟨hdue, rfl⟩)))
      | insertThrows => exact absurd rfl hinsert
      | writeThrows => exact Or.inr (Or.inl ⟨_, rfl⟩)
      | verifyThrows => exact Or.inr (Or.inr (Or.inl ⟨hdue, _, rfl⟩))
    · obtain ⟨hcount, hirr⟩ := not_or.mp hdue
      rw [Bool.not_eq_false] at hirr
      refine Or.inr (Or.inr (Or.inr (Or.inl ⟨hcount, hirr, ?_⟩)))
      exact if_neg hdue

/-! ## The calls -/

/-- The inserted blocks, newest first. -/
def inserted : List (EngineCall Tx) → List (Block Tx)
  | [] => []
  | .insertBlock e :: older => e :: inserted older
  | .writeLib _ :: older => inserted older
  | .verifyChain _ :: older => inserted older

/-- The blocks inserted since the chain was last verified. -/
def unverified : List (EngineCall Tx) → List (Block Tx)
  | [] => []
  | .insertBlock e :: older => e :: unverified older
  | .writeLib _ :: older => unverified older
  | .verifyChain _ :: _ => []

theorem inserted_append (calls older : List (EngineCall Tx)) :
    inserted (calls ++ older) = inserted calls ++ inserted older := by
  induction calls with
  | nil => rfl
  | cons call calls ih =>
      cases call with
      | insertBlock e =>
          show e :: inserted (calls ++ older) = e :: (inserted calls ++ inserted older)
          rw [ih]
      | writeLib v => exact ih
      | verifyChain hash => exact ih

theorem inserted_suffix {calls older : List (EngineCall Tx)} (h : older <:+ calls) :
    inserted older <:+ inserted calls := by
  obtain ⟨newer, rfl⟩ := h
  exact ⟨inserted newer, (inserted_append newer older).symm⟩

/-! ## The queue between the plugins -/

/-- The inserted blocks are an initial part of the published log; while the
    application runs, what is missing waits. -/
structure Fifo (p : Process Tx) : Prop where
  suffix : inserted p.calls <:+ p.converter.published
  waits : p.running = true →
    p.converter.published = (waiting p.queue).reverse ++ inserted p.calls

section Fifo

variable {E : Env Tx} {p q : Process Tx} {event : Event}

theorem fifo_start (startBlock : Block Tx) {s₀ : State Tx} (h : s₀.published = []) :
    Fifo (Process.start startBlock s₀) where
  suffix := List.nil_suffix
  waits := fun _ => h

theorem Fifo.step (h : Fifo p) (hstep : Process.step E p event = .ok q) : Fifo q := by
  cases changes_of_step hstep with
  | idle => exact h
  | receive b hrunning =>
      refine ⟨h.suffix, fun _ => ?_⟩
      show p.converter.published = (waiting (p.queue ++ [.native b])).reverse ++ _
      rw [waiting_append]
      show _ = (waiting p.queue ++ []).reverse ++ _
      rw [List.append_nil]
      exact h.waits hrunning
  | @native _ b rest s hrunning hqueue hs =>
      have hpub := published_eq hs
      have hwaits := h.waits hrunning
      rw [hqueue] at hwaits
      constructor
      · show inserted p.calls <:+ s.published
        rw [hpub]
        exact h.suffix.trans (List.suffix_append _ _)
      · intro _
        show s.published
          = (waiting (rest ++ (publishedSince p.converter s).map .evm)).reverse ++ _
        rw [waiting_append, waiting_map_evm, List.reverse_append, List.append_assoc, hpub]
        exact congrArg _ hwaits
  | thrown hrunning hqueue => exact ⟨h.suffix, fun hgone => absurd hgone Bool.false_ne_true⟩
  | @evm ending newBlock rest hrunning hqueue =>
      have hwaits := h.waits hrunning
      rw [hqueue] at hwaits
      have hone : p.converter.published
          = (waiting rest).reverse ++ newBlock :: inserted p.calls := by
        rw [hwaits]
        show (newBlock :: waiting rest).reverse ++ _ = _
        rw [List.reverse_cons, List.append_assoc]
        rfl
      have hsuf : newBlock :: inserted p.calls <:+ p.converter.published :=
        ⟨_, hone.symm⟩
      rcases evmBlocksHandler_cases E p.converter.evmLib p.blockCount ending newBlock with
        ⟨count, heq⟩ | ⟨count, heq⟩ | ⟨-, count, heq⟩ | ⟨-, -, heq⟩ | ⟨-, heq⟩
      · rw [heq]
        exact ⟨h.suffix, fun hgone => absurd hgone Bool.false_ne_true⟩
      · rw [heq]
        exact ⟨hsuf, fun hgone => absurd hgone Bool.false_ne_true⟩
      · rw [heq]
        exact ⟨hsuf, fun hgone => absurd hgone Bool.false_ne_true⟩
      · rw [heq]
        exact ⟨hsuf, fun _ => hone⟩
      · rw [heq]
        exact ⟨hsuf, fun _ => hone⟩

end Fifo

/-! ## Blocks that wait for verification -/

/-- The counter is the number of blocks inserted since the chain was last verified;
    they are irreversible, and fewer than 5000. -/
structure Counted (p : Process Tx) : Prop where
  count : p.blockCount = (unverified p.calls).length
  lt : p.blockCount < 5000
  irreversible : ∀ e ∈ unverified p.calls, e.irreversible = true

/-- A chain is verified up to the block inserted last, after the LIB has been stored;
    all blocks but this one have waited for it as irreversible ones. -/
def Verifies (E : Env Tx) (calls : List (EngineCall Tx)) : Prop :=
  ∀ hash older, .verifyChain hash :: older <:+ calls →
    ∃ v newBlock rest, older = .writeLib v :: .insertBlock newBlock :: rest ∧
      hash = E.libs.hash newBlock.header ∧
      (unverified rest).length < 5000 ∧ ∀ e ∈ unverified rest, e.irreversible = true

section Counted

variable {E : Env Tx} {p q : Process Tx} {event : Event}

/-- A `verify_chain` is not among calls that verify nothing. -/
theorem verify_suffix_append (calls : List (EngineCall Tx))
    {older rest : List (EngineCall Tx)} {hash : Bytes32} (hnone : ∀ hash, .verifyChain hash ∉ calls)
    (hsuf : .verifyChain hash :: rest <:+ calls ++ older) :
    .verifyChain hash :: rest <:+ older := by
  induction calls with
  | nil => exact hsuf
  | cons call calls ih =>
      rcases List.suffix_cons_iff.mp hsuf with heq | hsuf
      · obtain ⟨rfl, -⟩ := List.cons.inj heq
        exact absurd List.mem_cons_self (hnone hash)
      · exact ih (fun hash hmem => hnone hash (List.mem_cons_of_mem _ hmem)) hsuf

theorem Verifies.append {older : List (EngineCall Tx)} (h : Verifies E older)
    (calls : List (EngineCall Tx)) (hnone : ∀ hash, .verifyChain hash ∉ calls) : Verifies E (calls ++ older) :=
  fun hash rest hsuf => h hash rest (verify_suffix_append calls hnone hsuf)

/-- While the application runs the counter is right; the calls are in order at any
    time. -/
theorem Counted.step (hcounted : p.running = true → Counted p)
    (hcalls : Verifies E p.calls) (hstep : Process.step E p event = .ok q) :
    (q.running = true → Counted q) ∧ Verifies E q.calls := by
  cases changes_of_step hstep with
  | idle => exact ⟨hcounted, hcalls⟩
  | receive b hrunning =>
      have h := hcounted hrunning
      exact ⟨fun _ => ⟨h.count, h.lt, h.irreversible⟩, hcalls⟩
  | native hrunning hqueue hs =>
      have h := hcounted hrunning
      exact ⟨fun _ => ⟨h.count, h.lt, h.irreversible⟩, hcalls⟩
  | thrown hrunning hqueue => exact ⟨fun hgone => absurd hgone Bool.false_ne_true, hcalls⟩
  | @evm ending newBlock rest hrunning hqueue =>
      have h := hcounted hrunning
      have hsmall := h.lt
      have hcount := h.count
      have hmod : (p.blockCount + 1) % 2 ^ 64 = p.blockCount + 1 :=
        Nat.mod_eq_of_lt (by omega)
      rcases evmBlocksHandler_cases E p.converter.evmLib p.blockCount ending newBlock with
        ⟨count, heq⟩ | ⟨count, heq⟩ | ⟨-, count, heq⟩ | ⟨hnotdue, hirr, heq⟩ |
          ⟨-, heq⟩
      · rw [heq]
        exact ⟨fun hgone => absurd hgone Bool.false_ne_true, hcalls⟩
      · rw [heq]
        exact ⟨fun hgone => absurd hgone Bool.false_ne_true, hcalls.append _ (by simp)⟩
      · rw [heq]
        exact ⟨fun hgone => absurd hgone Bool.false_ne_true, hcalls.append _ (by simp)⟩
      · -- nothing is due: one more irreversible block waits
        rw [heq, hmod]
        rw [hmod] at hnotdue
        refine ⟨fun _ => ⟨?_, ?_, ?_⟩, hcalls.append _ (by simp)⟩
        · show p.blockCount + 1 = (unverified p.calls).length + 1
          omega
        · show p.blockCount + 1 < 5000
          omega
        · intro e he
          rcases List.mem_cons.mp he with rfl | he
          · exact hirr
          · exact h.irreversible e he
      · rw [heq]
        refine ⟨fun _ => ⟨rfl, Nat.zero_lt_succ _, fun e he => (by cases he)⟩, ?_⟩
        intro hash older hsuf
        rcases List.suffix_cons_iff.mp hsuf with heq' | hsuf
        · obtain ⟨hhash, rfl⟩ := List.cons.inj heq'
          obtain rfl := EngineCall.verifyChain.inj hhash
          exact ⟨_, newBlock, p.calls, rfl, rfl, by omega, h.irreversible⟩
        · exact hcalls.append [.writeLib p.converter.evmLib, .insertBlock newBlock]
            (by simp) hash older hsuf

end Counted

/-! ## The chain below a block -/

/-- Linked blocks, from the newest down to the number of the start block. -/
structure Rooted (E : Env Tx) (start : Nat) (blocks : List (Block Tx)) : Prop where
  linked : blocks.IsChain (fun x y =>
    x.header.number = y.header.number + 1 ∧ x.header.parentHash = E.libs.hash y.header)
  root : ∀ e ∈ blocks.getLast?, e.header.number = start

/-- The log begins with the start block's number and has no lower one. -/
structure FromStart (start : Nat) (evms published : List (Block Tx)) : Prop where
  evms_above : ∀ e ∈ evms, start ≤ e.header.number
  above : ∀ e ∈ published, start ≤ e.header.number
  unpublished : published = [] → ∀ e ∈ evms, e.header.number = start
  first : ∀ e ∈ published.getLast?, e.header.number = start

section FromStart

variable {start : Nat} {evms published : List (Block Tx)} {e e' : Block Tx}
  {es : List (Block Tx)}

theorem fromStart_init (startBlock : Block Tx) :
    FromStart startBlock.header.number [startBlock] [] where
  evms_above := fun e he => Nat.le_of_eq (by rw [List.mem_singleton.mp he])
  above := fun e he => (by cases he)
  unpublished := fun _ e he => (by rw [List.mem_singleton.mp he])
  first := fun e he => (by cases he)

/-- A change of the last block that keeps its number. -/
theorem FromStart.replace_head (h : FromStart start (e :: es) published)
    (hnum : e'.header.number = e.header.number) :
    FromStart start (e' :: es) published where
  evms_above := by
    intro x hx
    rcases List.mem_cons.mp hx with rfl | hx
    · rw [hnum]
      exact h.evms_above e List.mem_cons_self
    · exact h.evms_above x (List.mem_cons_of_mem _ hx)
  above := h.above
  unpublished := by
    intro hnone x hx
    rcases List.mem_cons.mp hx with rfl | hx
    · rw [hnum]
      exact h.unpublished hnone e List.mem_cons_self
    · exact h.unpublished hnone x (List.mem_cons_of_mem _ hx)
  first := h.first

theorem FromStart.of_subset (h : FromStart start evms published) (hsub : es ⊆ evms) :
    FromStart start es published where
  evms_above := fun x hx => h.evms_above x (hsub hx)
  above := h.above
  unpublished := fun hnone x hx => h.unpublished hnone x (hsub hx)
  first := h.first

/-- What is published first is the start block. -/
theorem FromStart.publish (h : FromStart start (e :: es) published)
    (hge : e.header.number ≤ e'.header.number) :
    FromStart start (e' :: e :: es) (e :: published) where
  evms_above := by
    intro x hx
    rcases List.mem_cons.mp hx with rfl | hx
    · have := h.evms_above e List.mem_cons_self
      omega
    · exact h.evms_above x hx
  above := by
    intro x hx
    rcases List.mem_cons.mp hx with rfl | hx
    · exact h.evms_above x List.mem_cons_self
    · exact h.above x hx
  unpublished := fun hnone => absurd hnone (List.cons_ne_nil _ _)
  first := by
    intro x hx
    cases hpub : published with
    | nil =>
        rw [hpub] at hx
        obtain rfl := Option.some.inj hx
        exact h.unpublished hpub e List.mem_cons_self
    | cons p ps =>
        rw [hpub, List.getLast?_cons_cons, ← hpub] at hx
        exact h.first x hx

end FromStart

theorem fromStart_invariant {E : Env Tx} {startBlock : Block Tx}
    (hE : Started E startBlock) (delivered : NativeBlock → Prop) (start : Nat) :
    EvmInvariant E delivered (FromStart start) where
  rollback := by
    intro evms published e es txs nb hsuf _ h
    have hsub : FromStart start (e :: es) published := h.of_subset hsuf.subset
    exact hsub.replace_head rfl
  extend := by
    intro last older published h
    have hroot : FromStart start (setTransactionsRoot E last :: older) published :=
      h.replace_head rfl
    refine hroot.publish ?_
    rw [generateNewEvmBlock_number hE]
    exact Nat.le_succ _
  add := by
    intro curr older published b curr' written _ hadd h
    obtain ⟨txs, -, hcurr', -⟩ := addNativeBlock_ok hE.lawful hadd
    rw [hcurr']
    exact h.replace_head rfl
  prune := fun _ _ _ _ h => h.of_subset (List.subset_append_left _ _)

section Rooted

variable {E : Env Tx} {start : Nat} {evms published log : List (Block Tx)}

/-- **Every initial part of the log holds a rooted chain.** -/
theorem FromStart.rooted (h : FromStart start evms published)
    (hlinked : LogLinked E start published) (hsuf : log <:+ published) :
    Rooted E start (view blockNumber log) := by
  have hlog : LogLinked E start log := fun x older hx => hlinked x older (hx.trans hsuf)
  have hge : ∀ x ∈ log, start ≤ x.header.number := fun x hx => h.above x (hsuf.subset hx)
  refine ⟨hlog.view_linked hge, ?_⟩
  intro e he
  have hmem := mem_of_mem_view (List.mem_of_getLast? he)
  -- the oldest entry of the log has the lowest number, so the view reaches it
  obtain ⟨oldest, holdest⟩ : ∃ oldest, log.getLast? = some oldest := by
    cases hlast : log.getLast? with
    | none => exact absurd (List.getLast?_eq_none_iff.mp hlast) (List.ne_nil_of_mem hmem)
    | some oldest => exact ⟨oldest, rfl⟩
  have hnum : oldest.header.number = start := by
    refine h.first oldest ?_
    obtain ⟨newer, rfl⟩ := hsuf
    rw [List.getLast?_append, holdest]
    rfl
  obtain ⟨x, hfind⟩ : ∃ x, log.find? (fun y => blockNumber y = start) = some x := by
    refine Option.isSome_iff_exists.mp ?_
    rw [List.find?_isSome]
    exact ⟨oldest, List.mem_of_getLast? holdest, decide_eq_true hnum⟩
  have hx := hlog.gapless.mem_view_of_find?
    (fun y hy => hge y (List.mem_of_head? hy)) hfind
  have hxnum : blockNumber x = start := by simpa using List.find?_some hfind
  have hxdef : blockNumber x = x.header.number := rfl
  have hle := Consecutive.front_le hlog.gapless.view_consecutive e he x hx
  have := hge e hmem
  omega

end Rooted

/-! ## Every run -/

/-- What holds of the process whatever it is given. -/
structure InOrder (E : Env Tx) (start : Nat) (p : Process Tx) : Prop where
  linked : Linked E start p.converter.evmBlocks p.converter.published
  from_start : FromStart start p.converter.evmBlocks p.converter.published
  fifo : Fifo p
  counted : p.running = true → Counted p
  calls : Verifies E p.calls

section Runs

variable {E : Env Tx} {startBlock : Block Tx} {p q : Process Tx} {event : Event}

theorem inOrder_start (E : Env Tx) (startBlock : Block Tx) (evmLib₀ : Nat) :
    InOrder E startBlock.header.number
      (Process.start startBlock (initialState startBlock evmLib₀)) where
  linked := linked_init E startBlock
  from_start := fromStart_init startBlock
  fifo := fifo_start startBlock rfl
  counted := fun _ => ⟨rfl, Nat.zero_lt_succ _, fun e he => (by cases he)⟩
  calls := fun hash older hsuf => absurd (hsuf.subset List.mem_cons_self) List.not_mem_nil

/-- **One step**, whatever it is. -/
theorem InOrder.step (hE : Started E startBlock)
    (h : InOrder E startBlock.header.number p) (hstep : Process.step E p event = .ok q) :
    InOrder E startBlock.header.number q := by
  obtain ⟨hcounted, hcalls⟩ := Counted.step h.counted h.calls hstep
  have hconverter : Linked E startBlock.header.number q.converter.evmBlocks
        q.converter.published ∧
      FromStart startBlock.header.number q.converter.evmBlocks q.converter.published := by
    cases changes_of_step hstep with
    | native hrunning hqueue hs =>
        exact ⟨(linked_invariant hE (fun _ => True)).step trivial hs h.linked,
          (fromStart_invariant hE (fun _ => True) _).step trivial hs h.from_start⟩
    | idle => exact ⟨h.linked, h.from_start⟩
    | receive b hrunning => exact ⟨h.linked, h.from_start⟩
    | thrown hrunning hqueue => exact ⟨h.linked, h.from_start⟩
    | evm hrunning hqueue => exact ⟨h.linked, h.from_start⟩
  exact ⟨hconverter.1, hconverter.2, h.fifo.step hstep, hcounted, hcalls⟩

theorem inOrder_reach (hE : Started E startBlock) {evmLib₀ : Nat}
    {adm : Process Tx → Event → Prop} {events : List Event}
    (hrun : Reach (Process.step E) adm
      (Process.start startBlock (initialState startBlock evmLib₀)) events p) :
    InOrder E startBlock.header.number p :=
  hrun.invariant (inOrder_start E startBlock evmLib₀)
    (fun _ _ _ hp _ hstep => hp.step hE hstep)

end Runs

/-- **The engine is never asked for a chain it does not have.**  In every run the
    engine has been given an initial part of the published log, all of it but what
    waits; `verify_chain` names the block inserted last, whose ancestors have all been
    inserted down to the start block; and it comes after 5000 blocks at the latest, all
    of them but the last irreversible. -/
theorem engine_calls_rooted {X : Externals Tx} {db : ChainData Tx} {height : Option Nat}
    {startBlock : Block Tx} {E : Env Tx} {s₀ : State Tx}
    (hload : Loaded X db height startBlock E s₀) {adm : Process Tx → Event → Prop}
    {events : List Event} {p : Process Tx}
    (hrun : Reach (Process.step E) adm (Process.start startBlock s₀) events p) :
    inserted p.calls <:+ p.converter.published ∧
    (p.running = true →
      p.converter.published = (waiting p.queue).reverse ++ inserted p.calls ∧
        p.blockCount = (unverified p.calls).length ∧ p.blockCount < 5000) ∧
    ∀ hash older, .verifyChain hash :: older <:+ p.calls →
      ∃ v newBlock rest, older = .writeLib v :: .insertBlock newBlock :: rest ∧
        hash = E.libs.hash newBlock.header ∧
        (view blockNumber (inserted older)).head? = some newBlock ∧
        Rooted E startBlock.header.number (view blockNumber (inserted older)) ∧
        (unverified rest).length < 5000 ∧ ∀ e ∈ unverified rest, e.irreversible = true := by
  have hE := hload.started
  obtain ⟨evmLib₀, rfl⟩ := hload.initial
  have h := inOrder_reach hE hrun
  refine ⟨h.fifo.suffix, ?_, ?_⟩
  · intro hrunning
    have hcounted := h.counted hrunning
    exact ⟨h.fifo.waits hrunning, hcounted.count, hcounted.lt⟩
  · intro hash older hsuf
    obtain ⟨v, newBlock, rest, rfl, hhash, hlength, hirr⟩ := h.calls hash older hsuf
    have holder := inserted_suffix ((List.suffix_cons _ _).trans hsuf)
    refine ⟨v, newBlock, rest, rfl, hhash, ?_, ?_, hlength, hirr⟩
    · rw [head?_view]
      rfl
    · exact h.from_start.rooted h.linked.log (holder.trans h.fifo.suffix)

/-- EVM block 1 is published and inserted twice, before and after a fork; the last
    `verify_chain` throws. -/
def plainEvents : List Event :=
  [.receive (plainNative 2 0 0 21 1 [plainPayload 0 0 [1, 2]]), .run .returns,
   .run .returns, .receive (plainNative 3 0 0 22 1 [plainPayload 0 0 [3]]),
   .receive (plainNative 3 1 0 23 1 []), .run .returns, .run .returns, .run .returns,
   .run .verifyThrows]

theorem engine_calls_rooted_plainEvents :
    ∃ p, Reach (Process.step plainEnv) (fun _ _ => True)
        (Process.start plainGenesis (initialState plainGenesis 0)) plainEvents p ∧
      (inserted p.calls).map blockNumber = [1, 1, 0] ∧ p.running = false ∧
      ∀ hash older, .verifyChain hash :: older <:+ p.calls →
        Rooted plainEnv 0 (view blockNumber (inserted older)) := by
  have hcheck : checkRun (Process.step plainEnv) (fun _ _ => True)
      (Process.start plainGenesis (initialState plainGenesis 0)) plainEvents = true := by
    decide +kernel
  obtain ⟨p, hp⟩ := exists_reach hcheck
  have hinserted : (inserted p.calls).map blockNumber = [1, 1, 0] :=
    hp.eval (f := fun p => (inserted p.calls).map blockNumber) (by decide +kernel)
  have hrunning : p.running = false :=
    hp.eval (f := fun p => p.running) (by decide +kernel)
  refine ⟨p, hp, hinserted, hrunning, ?_⟩
  intro hash older hsuf
  obtain ⟨-, -, -, -, -, -, hrooted, -⟩ :=
    (engine_calls_rooted (plainEnv_loaded 0) hp).2.2 hash older hsuf
  exact hrooted

/-! ## The engine as a replica -/

/-- A native block is the next one of the chain, or one that is held. -/
def Delivers (E : Env Tx) (p : Process Tx) : Event → Prop
  | .receive _ => True
  | .run _ =>
      match p.queue with
      | .native b :: _ => Delivery E (p.converter, p.chain) b
      | _ => True

instance (E : Env Tx) (p : Process Tx) (event : Event) :
    Decidable (Delivers E p event) := by
  unfold Delivers
  split
  · infer_instance
  · split <;> infer_instance

section Replica

variable {E : Env Tx} {startBlock : Block Tx} {p q : Process Tx} {event : Event}

/-- The native block whose handler returns is delivered. -/
theorem Delivers.delivery {ending : Ending} {b : NativeBlock} {rest : List (Message Tx)}
    (h : Delivers E p (.run ending)) (hqueue : p.queue = .native b :: rest) :
    Delivery E (p.converter, p.chain) b := by
  simp only [Delivers, hqueue] at h
  exact h

theorem replicated_step (hE : Started E startBlock)
    (h : Replicated E startBlock p.converter p.chain) (hd : Delivers E p event)
    (hstep : Process.step E p event = .ok q) :
    Replicated E startBlock q.converter q.chain := by
  cases changes_of_step hstep with
  | native hrunning hqueue hs =>
      exact h.step (p := (p.converter, p.chain)) hE (hd.delivery hqueue)
        (trackedHandler_eq _ hs)
  | idle => exact h
  | receive b hrunning => exact h
  | thrown hrunning hqueue => exact h
  | evm hrunning hqueue => exact h

/-- Below what waits the engine holds what a reader of the whole log holds. -/
theorem Fifo.mem_view_iff (h : Fifo p) (hrunning : p.running = true) {x : Block Tx}
    (hlow : ∀ e ∈ waiting p.queue, x.header.number < e.header.number) :
    x ∈ view blockNumber p.converter.published ↔ x ∈ view blockNumber (inserted p.calls) := by
  rw [h.waits hrunning]
  refine mem_view_append ?_
  intro e he
  exact hlow e (List.mem_reverse.mp he)

end Replica

end Blockchain.EngineCalls
