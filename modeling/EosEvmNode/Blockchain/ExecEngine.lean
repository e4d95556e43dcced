import EosEvmNode.Blockchain.StoredLib

/-! # The execution engine — `exec_engine`

    The pointer is null until the handler of the first EVM block makes the engine.
    Two more functions go through it, without a test: `get_tx()`, which the handler of
    a native block calls to write new consensus parameters, and `shutdown()`.

    EVM blocks are published while a native block is handled, and are handled
    themselves when the messages before them have been.  So a native block that
    was received before any EVM block was published is handled while the pointer is
    null.

    While the application runs, its queue is that of the node that stores the LIB, and
    what waits there has been published. -/

namespace Blockchain.ExecEngine

open Channels Silkworm Engine Runs BlockConversion

variable {Tx : Type}

/-- Undefined behaviour: the null pointer is dereferenced. -/
inductive Fault where
  | nullEngine
  deriving DecidableEq, Repr

/-- `quit()` ends the event loop; `shutdown()` follows. -/
inductive Phase where
  | running
  | quitting
  | stopped
  deriving DecidableEq, Repr

/-- How a call of the `evm_blocks` handler ends.  What is thrown there is caught,
    and the application quits. -/
inductive Call where
  | returns
  /-- The engine cannot be made. -/
  | constructorThrows
  /-- `open`, `insert_block`, `verify_chain` or a write throws. -/
  | throws
  deriving DecidableEq, Repr

structure Node (Tx : Type) where
  converter : State Tx
  queue : List (Message Tx)
  /-- Is the pointer set? -/
  execEngine : Bool
  phase : Phase
  deriving DecidableEq

def Node.start (s₀ : State Tx) : Node Tx where
  converter := s₀
  queue := []
  execEngine := false
  phase := .running

inductive Event where
  /-- The receiver publishes a native block. -/
  | receive (b : NativeBlock)
  /-- The handler of the next message runs. -/
  | run (call : Call)
  | shutdown
  deriving DecidableEq

/-- The handler of a native block as far as `get_tx()`: is it called? -/
def callsGetTx (E : Env Tx) (s : State Tx) (b : NativeBlock) :
    Except Failure Bool :=
  if b.timestamp ≤ E.bm.genesisTimestamp then .ok false
  else do
    match ← linkNativeBlock E s b with
    | none => .ok false
    | some s => do
        let s := { s with nativeBlocks := b :: s.nativeBlocks }
        let s ← extendEvmChain E (E.evmNum b) (E.evmNum b) s
        match s.evmBlocks with
        | [] => .error .undefined
        | curr :: _ => do
            let (_, written) ← applyNewConfig E curr b
            .ok !written.isEmpty

/-- Does the handler of this block call `get_tx()`, whether it returns or not? -/
def usesTx (E : Env Tx) (s : State Tx) (b : NativeBlock) : Bool :=
  match callsGetTx E s b with
  | .ok called => called
  | .error _ => false

/-- The handler of an EVM block, as far as the pointer goes. -/
def evmBlocksHandler (execEngine : Bool) (call : Call) : Bool × Phase :=
  if !execEngine && call = .constructorThrows then (false, .quitting)
  else (true, if call = .throws then .quitting else .running)

def Node.step (E : Env Tx) (n : Node Tx) : Event → Except Fault (Node Tx)
  | .receive b =>
      match n.phase with
      | .running => .ok { n with queue := n.queue ++ [.native b] }
      | _ => .ok n
  | .run call =>
      match n.phase, n.queue with
      | .running, .native b :: rest =>
          if usesTx E n.converter b && !n.execEngine then .error .nullEngine
          else
            match nativeBlocksHandler E n.converter b with
            | .ok s =>
                .ok { n with
                  converter := s
                  queue := rest ++ (publishedSince n.converter s).map .evm }
            -- the channel catches what is thrown, and quits
            | .error _ => .ok { n with queue := rest, phase := .quitting }
      | .running, .evm _ :: rest =>
          let (execEngine, phase) := evmBlocksHandler n.execEngine call
          .ok { n with queue := rest, execEngine := execEngine, phase := phase }
      | _, _ => .ok n
  | .shutdown =>
      match n.phase with
      | .stopped => .ok n
      | _ =>
          if n.execEngine then .ok { n with phase := .stopped }
          else .error .nullEngine

/-- A handler that returns has called `get_tx()` exactly when it has written
    consensus parameters. -/
theorem usesTx_iff {E : Env Tx} {s s' : State Tx} {b : NativeBlock}
    (h : nativeBlocksHandler E s b = .ok s') :
    usesTx E s b = true ↔ s'.consensusParameters ≠ s.consensusParameters := by
  rw [nativeBlocksHandler] at h
  unfold usesTx callsGetTx
  by_cases hgen : b.timestamp ≤ E.bm.genesisTimestamp
  · rw [if_pos hgen] at h ⊢
    obtain rfl := Except.ok.inj h
    exact iff_of_false Bool.false_ne_true (not_not_intro rfl)
  · rw [if_neg hgen] at h ⊢
    obtain ⟨linked, hlink, h⟩ := bind_ok h
    rw [hlink, ok_bind]
    cases linked with
    | none =>
        obtain rfl := Except.ok.inj h
        exact iff_of_false Bool.false_ne_true (not_not_intro rfl)
    | some t =>
        obtain ⟨u, curr, older, curr', written, ha⟩ := appendNativeBlock_ok h
        obtain ⟨⟨c, w⟩, hconfig, hrest⟩ := bind_ok ha.added
        obtain ⟨⟨c', v'⟩, -, hadded⟩ := bind_ok hrest
        obtain ⟨-, rfl⟩ := Prod.mk.inj (Except.ok.inj hadded)
        rw [ha.parameters, (LinkedTo.of_link hlink).parameters]
        simp only [ha.extended, ok_bind, ha.evms, hconfig, ne_eq,
          List.append_left_eq_self]
        cases w with
        | nil => exact iff_of_false Bool.false_ne_true (not_not_intro rfl)
        | cons p ps => exact iff_of_true rfl (List.cons_ne_nil p ps)

/-! ## The condition -/

def isEvm : Message Tx → Bool
  | .native _ => false
  | .evm _ => true

/-- The number of EVM blocks that wait for their handler. -/
def waiting (queue : List (Message Tx)) : Nat :=
  queue.countP isEvm

/-- The native blocks that wait before the first EVM block. -/
def leading : List (Message Tx) → List NativeBlock
  | .native b :: rest => b :: leading rest
  | _ => []

/-- Does the handler of `b` call `get_tx()` after these blocks have been handled? -/
def usesTxAfter (E : Env Tx) (s : State Tx) (bs : List NativeBlock) (b : NativeBlock) :
    Bool :=
  match feed (nativeBlocksHandler E) s bs with
  | .ok s' => usesTx E s' b
  | .error _ => false

/-- **The condition**, on the state before a step: a block that is received before any
    EVM block has been published does not come to write parameters; the engine
    can be made; and the plugin is shut down when some published EVM block no
    longer waits. -/
def Ready (E : Env Tx) (n : Node Tx) : Event → Prop
  | .receive b => n.phase = .running → n.converter.published = [] →
      usesTxAfter E n.converter (leading n.queue) b = false
  | .run call => n.phase = .running → call = .constructorThrows →
      (∃ m ∈ n.queue.head?, isEvm m = true) →
        waiting n.queue < n.converter.published.length
  | .shutdown => n.phase ≠ .stopped →
      waiting n.queue < n.converter.published.length

instance (E : Env Tx) (n : Node Tx) (e : Event) : Decidable (Ready E n e) := by
  unfold Ready
  split <;> infer_instance

section Queue

variable {queue : List (Message Tx)}

theorem waiting_native (b : NativeBlock) (rest : List (Message Tx)) :
    waiting (.native b :: rest) = waiting rest :=
  List.countP_cons_of_neg Bool.false_ne_true

theorem waiting_evm (e : Block Tx) (rest : List (Message Tx)) :
    waiting (.evm e :: rest) = waiting rest + 1 :=
  List.countP_cons_of_pos rfl

theorem waiting_receive (queue : List (Message Tx)) (b : NativeBlock) :
    waiting (queue ++ [.native b]) = waiting queue := by
  rw [waiting, List.countP_append]
  rfl

theorem waiting_publish (queue : List (Message Tx)) (es : List (Block Tx)) :
    waiting (queue ++ es.map .evm) = waiting queue + es.length := by
  induction es generalizing queue with
  | nil => rw [List.map_nil, List.append_nil, List.length_nil, Nat.add_zero]
  | cons e es ih =>
      rw [List.map_cons, List.append_cons, ih, waiting, List.countP_append]
      show waiting queue + 1 + es.length = waiting queue + (es.length + 1)
      omega

theorem waiting_eq_length (queue : List (Message Tx)) :
    waiting queue = (Blockchain.waiting queue).length := by
  induction queue with
  | nil => rfl
  | cons m rest ih =>
      cases m with
      | native b =>
          rw [waiting_native]
          exact ih
      | evm e =>
          rw [waiting_evm, ih]
          rfl

theorem leading_publish (queue : List (Message Tx)) (es : List (Block Tx)) :
    leading (queue ++ es.map .evm) = leading queue := by
  induction queue with
  | nil => cases es <;> rfl
  | cons m rest ih =>
      cases m with
      | evm e => rfl
      | native b =>
          show b :: leading (rest ++ es.map .evm) = b :: leading rest
          rw [ih]

/-- A received block joins the leading ones as long as no EVM block waits. -/
theorem leading_receive (queue : List (Message Tx)) (b : NativeBlock) :
    leading (queue ++ [.native b])
      = if waiting queue = 0 then leading queue ++ [b] else leading queue := by
  induction queue with
  | nil => rfl
  | cons m rest ih =>
      cases m with
      | evm e =>
          rw [waiting_evm, if_neg (Nat.succ_ne_zero _)]
          rfl
      | native c =>
          show c :: leading (rest ++ [.native b]) = _
          rw [ih, waiting_native]
          split <;> rfl

theorem queue_eq_leading (h : waiting queue = 0) :
    queue = (leading queue).map .native := by
  induction queue with
  | nil => rfl
  | cons m rest ih =>
      cases m with
      | evm e =>
          rw [waiting_evm] at h
          omega
      | native b =>
          rw [waiting_native] at h
          show Message.native b :: rest = .native b :: (leading rest).map .native
          rw [← ih h]

end Queue

/-! ## The steps -/

section Equations

variable {E : Env Tx} {n : Node Tx} {b : NativeBlock} {block : Block Tx}
  {rest : List (Message Tx)} {s : State Tx} {err : Failure}

theorem step_receive (b : NativeBlock) (hphase : n.phase = .running) :
    Node.step E n (.receive b) = .ok { n with queue := n.queue ++ [.native b] } := by
  simp only [Node.step, hphase]

theorem step_receive_idle (b : NativeBlock) (hphase : n.phase ≠ .running) :
    Node.step E n (.receive b) = .ok n := by
  cases hp : n.phase with
  | running => exact absurd hp hphase
  | quitting => simp only [Node.step, hp]
  | stopped => simp only [Node.step, hp]

theorem step_run_idle (call : Call) (hphase : n.phase ≠ .running) :
    Node.step E n (.run call) = .ok n := by
  cases hp : n.phase with
  | running => exact absurd hp hphase
  | quitting => simp only [Node.step, hp]
  | stopped => simp only [Node.step, hp]

theorem step_run_nil (call : Call) (hq : n.queue = []) :
    Node.step E n (.run call) = .ok n := by
  cases hp : n.phase <;> simp only [Node.step, hp, hq]

theorem step_native (call : Call) (hphase : n.phase = .running)
    (hq : n.queue = .native b :: rest)
    (huse : (usesTx E n.converter b && !n.execEngine) = false)
    (hs : nativeBlocksHandler E n.converter b = .ok s) :
    Node.step E n (.run call) = .ok { n with
      converter := s
      queue := rest ++ (publishedSince n.converter s).map .evm } := by
  simp only [Node.step, hphase, hq, huse, hs, Bool.false_eq_true, if_false]

theorem step_throws (call : Call) (hphase : n.phase = .running)
    (hq : n.queue = .native b :: rest)
    (huse : (usesTx E n.converter b && !n.execEngine) = false)
    (hs : nativeBlocksHandler E n.converter b = .error err) :
    Node.step E n (.run call) = .ok { n with queue := rest, phase := .quitting } := by
  simp only [Node.step, hphase, hq, huse, hs, Bool.false_eq_true, if_false]

theorem step_null (call : Call) (hphase : n.phase = .running)
    (hq : n.queue = .native b :: rest) (huse : usesTx E n.converter b = true)
    (hengine : n.execEngine = false) :
    Node.step E n (.run call) = .error .nullEngine := by
  simp only [Node.step, hphase, hq, huse, hengine, Bool.not_false, Bool.and_self, if_true]

theorem step_evm (call : Call) (hphase : n.phase = .running)
    (hq : n.queue = .evm block :: rest) :
    Node.step E n (.run call) = .ok { n with
      queue := rest
      execEngine := (evmBlocksHandler n.execEngine call).1
      phase := (evmBlocksHandler n.execEngine call).2 } := by
  simp only [Node.step, hphase, hq]

theorem step_shutdown_stopped (hphase : n.phase = .stopped) :
    Node.step E n .shutdown = .ok n := by
  simp only [Node.step, hphase]

theorem step_shutdown (hphase : n.phase ≠ .stopped) (hengine : n.execEngine = true) :
    Node.step E n .shutdown = .ok { n with phase := .stopped } := by
  cases hp : n.phase with
  | running => simp only [Node.step, hp, hengine, if_true]
  | quitting => simp only [Node.step, hp, hengine, if_true]
  | stopped => exact absurd hp hphase

theorem step_shutdown_null (hphase : n.phase ≠ .stopped) (hengine : n.execEngine = false) :
    Node.step E n .shutdown = .error .nullEngine := by
  cases hp : n.phase with
  | running => simp only [Node.step, hp, hengine, Bool.false_eq_true, if_false]
  | quitting => simp only [Node.step, hp, hengine, Bool.false_eq_true, if_false]
  | stopped => exact absurd hp hphase

end Equations

/-! ## The node that stores the LIB -/

/-- The same converter and the same queue. -/
def Node.Mirrors (n : Node Tx) (m : Blockchain.Node Tx) : Prop :=
  m.converter = n.converter ∧ m.queue = n.queue

section Mirrors

variable {E : Env Tx} {n n' : Node Tx} {m : Blockchain.Node Tx} {e : Event}

/-- A step that leaves the application running is one of the other node. -/
theorem Node.Mirrors.step (h : n.Mirrors m) (hphase : n.phase = .running)
    (hstep : Node.step E n e = .ok n') (hrunning : n'.phase = .running) :
    ∃ e' m', Blockchain.Node.step E m e' = .ok m' ∧ n'.Mirrors m' := by
  obtain ⟨hconverter, hqueue⟩ := h
  cases e with
  | receive b =>
      rw [step_receive b hphase] at hstep
      obtain rfl := Except.ok.inj hstep
      exact ⟨.receive b, _, rfl, hconverter, by rw [hqueue]⟩
  | run call =>
      cases hq : n.queue with
      | nil =>
          rw [step_run_nil call hq] at hstep
          obtain rfl := Except.ok.inj hstep
          refine ⟨.run .returns, m, ?_, hconverter, hqueue⟩
          rw [Blockchain.Node.step, hqueue, hq]
      | cons message rest =>
          cases message with
          | evm block =>
              rw [step_evm call hphase hq] at hstep
              obtain rfl := Except.ok.inj hstep
              refine ⟨.run .returns, { m with
                queue := rest
                store := Blockchain.evmBlocksHandler m.converter.evmLib m.store .returns
                  block }, ?_, hconverter, rfl⟩
              simp only [Blockchain.Node.step, hqueue, hq]
          | native b =>
              cases huse : (usesTx E n.converter b && !n.execEngine) with
              | true =>
                  simp only [Node.step, hphase, hq, huse, if_true] at hstep
                  cases hstep
              | false =>
                  cases hs : nativeBlocksHandler E n.converter b with
                  | ok s =>
                      rw [step_native call hphase hq huse hs] at hstep
                      obtain rfl := Except.ok.inj hstep
                      refine ⟨.run .returns, { m with
                        converter := s
                        chain := m.chain.deliver b
                        queue := rest ++ (publishedSince n.converter s).map .evm },
                        ?_, rfl, rfl⟩
                      simp only [Blockchain.Node.step, hqueue, hconverter, hq, hs]
                      rfl
                  | error err =>
                      -- the application has quit
                      rw [step_throws call hphase hq huse hs] at hstep
                      obtain rfl := Except.ok.inj hstep
                      cases hrunning
  | shutdown =>
      have hlive : n.phase ≠ .stopped := by rw [hphase]; rintro ⟨⟩
      cases hengine : n.execEngine with
      | false =>
          rw [step_shutdown_null hlive hengine] at hstep
          cases hstep
      | true =>
          rw [step_shutdown hlive hengine] at hstep
          obtain rfl := Except.ok.inj hstep
          cases hrunning

/-- An application that runs has been running. -/
theorem running_of_step (hstep : Node.step E n e = .ok n') (hrunning : n'.phase = .running) :
    n.phase = .running := by
  by_contra hphase
  cases e with
  | receive b =>
      rw [step_receive_idle b hphase] at hstep
      exact hphase (Except.ok.inj hstep ▸ hrunning)
  | run call =>
      rw [step_run_idle call hphase] at hstep
      exact hphase (Except.ok.inj hstep ▸ hrunning)
  | shutdown =>
      by_cases hstopped : n.phase = .stopped
      · rw [step_shutdown_stopped hstopped] at hstep
        exact hphase (Except.ok.inj hstep ▸ hrunning)
      · cases hengine : n.execEngine with
        | false =>
            rw [step_shutdown_null hstopped hengine] at hstep
            cases hstep
        | true =>
            rw [step_shutdown hstopped hengine] at hstep
            obtain rfl := Except.ok.inj hstep
            cases hrunning

/-- While the application runs there is a node that stores the LIB, with the same
    queue, and all that waits there has been published. -/
def Node.Mirrored (n : Node Tx) : Prop :=
  n.phase = .running → ∃ m : Blockchain.Node Tx, m.Waits ∧ n.Mirrors m

theorem mirrored_start (startBlock : Block Tx) (s₀ : State Tx) : (Node.start s₀).Mirrored :=
  fun _ => ⟨Blockchain.Node.start startBlock s₀, List.nil_prefix, rfl, rfl⟩

theorem Node.Mirrored.step (h : n.Mirrored) (hstep : Node.step E n e = .ok n') :
    n'.Mirrored := by
  intro hrunning
  have hphase := running_of_step hstep hrunning
  obtain ⟨m, hwaits, hmirrors⟩ := h hphase
  obtain ⟨e', m', hstep', hmirrors'⟩ := hmirrors.step hphase hstep hrunning
  exact ⟨m', hwaits.step hstep', hmirrors'⟩

theorem Node.Mirrored.waiting_le (h : n.Mirrored) (hphase : n.phase = .running) :
    waiting n.queue ≤ n.converter.published.length := by
  obtain ⟨m, hwaits, hconverter, hqueue⟩ := h hphase
  have hle := List.IsPrefix.length_le hwaits
  rw [List.length_reverse, hqueue, hconverter, ← waiting_eq_length] at hle
  exact hle

end Mirrors

/-! ## The invariant -/

/-- The pointer is set once an EVM block has left the queue; until then no native
    block that waits before the first of them uses it. -/
structure Safe (E : Env Tx) (n : Node Tx) : Prop where
  mirrored : n.Mirrored
  engine : n.execEngine = true ↔ waiting n.queue < n.converter.published.length
  leading : n.phase = .running → n.execEngine = false →
    Offered (nativeBlocksHandler E) (fun s b => usesTx E s b = false) n.converter
      (leading n.queue)

section Steps

variable {E : Env Tx} {n n' : Node Tx} {b : NativeBlock} {e : Event}

theorem safe_start (E : Env Tx) (startBlock : Block Tx) {s₀ : State Tx}
    (h : s₀.published = []) : Safe E (Node.start s₀) where
  mirrored := mirrored_start startBlock s₀
  engine := by
    show false = true ↔ 0 < s₀.published.length
    rw [h]
    exact iff_of_false Bool.false_ne_true (Nat.lt_irrefl 0)
  leading := fun _ _ => trivial

theorem Safe.published_of_engine (h : Safe E n) (hphase : n.phase = .running)
    (hengine : n.execEngine = false) :
    waiting n.queue = n.converter.published.length := by
  have hle := h.mirrored.waiting_le hphase
  have hlt : ¬ waiting n.queue < n.converter.published.length := fun hlt =>
    Bool.false_ne_true (hengine.symm.trans (h.engine.mpr hlt))
  omega

/-- What the converter publishes joins the queue. -/
theorem length_published {s s' : State Tx}
    (h : nativeBlocksHandler E s b = .ok s') :
    s'.published.length = s.published.length + (publishedSince s s').length := by
  rw [published_eq h, List.length_append, List.length_reverse]
  omega

theorem Safe.receive (h : Safe E n) (hphase : n.phase = .running)
    (hready : n.converter.published = [] →
      usesTxAfter E n.converter (ExecEngine.leading n.queue) b = false) :
    Safe E { n with queue := n.queue ++ [.native b] } where
  mirrored := h.mirrored.step (step_receive (E := E) b hphase)
  engine := by
    show n.execEngine = true ↔ waiting (n.queue ++ [.native b]) < _
    rw [waiting_receive]
    exact h.engine
  leading := by
    intro _ hengine
    have hwait := h.published_of_engine hphase hengine
    show Offered _ _ n.converter (ExecEngine.leading (n.queue ++ [.native b]))
    rw [leading_receive]
    by_cases hzero : waiting n.queue = 0
    · -- nothing has been published: the condition speaks about this block
      rw [if_pos hzero]
      refine (h.leading hphase hengine).concat ?_
      intro s hs
      have hnone := hready (List.eq_nil_of_length_eq_zero (hwait.symm.trans hzero))
      rw [usesTxAfter, hs] at hnone
      exact hnone
    · rw [if_neg hzero]
      exact h.leading hphase hengine

/-- A native block that waits first does not use the pointer while it is null. -/
theorem Safe.not_usesTx {rest : List (Message Tx)} (h : Safe E n)
    (hphase : n.phase = .running) (hq : n.queue = .native b :: rest) :
    (usesTx E n.converter b && !n.execEngine) = false := by
  cases hengine : n.execEngine with
  | true => exact Bool.and_false _
  | false =>
      have hoffered := h.leading hphase hengine
      rw [hq] at hoffered
      rw [hoffered.1]
      rfl

/-- The handler of a native block at the head of the queue. -/
theorem Safe.native {rest : List (Message Tx)} {s : State Tx} (h : Safe E n)
    (hphase : n.phase = .running) (hq : n.queue = .native b :: rest)
    (hs : nativeBlocksHandler E n.converter b = .ok s) :
    Safe E { n with
      converter := s
      queue := rest ++ (publishedSince n.converter s).map .evm } where
  mirrored := h.mirrored.step
    (step_native .returns hphase hq (h.not_usesTx hphase hq) hs)
  engine := by
    have hlen := length_published hs
    have hwait : waiting n.queue = waiting rest := by rw [hq, waiting_native]
    have hle := h.mirrored.waiting_le hphase
    show n.execEngine = true ↔
      waiting (rest ++ (publishedSince n.converter s).map .evm) < s.published.length
    rw [h.engine, waiting_publish]
    omega
  leading := by
    intro _ hnone
    have hoffered := h.leading hphase hnone
    rw [hq] at hoffered
    show Offered _ _ s (ExecEngine.leading (rest ++ _))
    rw [leading_publish]
    exact hoffered.2 s hs

/-- A native block leaves the queue, and its handler throws. -/
theorem Safe.thrown {rest : List (Message Tx)} (h : Safe E n)
    (hq : n.queue = .native b :: rest) :
    Safe E { n with queue := rest, phase := .quitting } where
  mirrored := by rintro ⟨⟩
  engine := by
    have hwait : waiting n.queue = waiting rest := by rw [hq, waiting_native]
    exact hwait ▸ h.engine
  leading := by rintro ⟨⟩

/-- An EVM block leaves the queue, and the engine is there. -/
theorem Safe.evm {rest : List (Message Tx)} {block : Block Tx} {call : Call}
    (h : Safe E n) (hphase : n.phase = .running) (hq : n.queue = .evm block :: rest)
    (hmade : (evmBlocksHandler n.execEngine call).1 = true) :
    Safe E { n with
      queue := rest
      execEngine := (evmBlocksHandler n.execEngine call).1
      phase := (evmBlocksHandler n.execEngine call).2 } where
  mirrored := h.mirrored.step (step_evm (E := E) call hphase hq)
  engine := by
    have hwait : waiting n.queue = waiting rest + 1 := by rw [hq, waiting_evm]
    have hle := h.mirrored.waiting_le hphase
    refine iff_of_true hmade ?_
    show waiting rest < n.converter.published.length
    omega
  leading := fun _ hnone => absurd (hmade.symm.trans hnone) Bool.false_ne_true.symm

theorem Safe.stopped (h : Safe E n) : Safe E { n with phase := .stopped } where
  mirrored := by rintro ⟨⟩
  engine := h.engine
  leading := by rintro ⟨⟩

/-- The engine is there once the first EVM block has been handled, unless it cannot
    be made. -/
theorem evmBlocksHandler_fst (execEngine : Bool) (call : Call) :
    (evmBlocksHandler execEngine call).1
      = (execEngine || !decide (call = .constructorThrows)) := by
  cases execEngine <;> cases call <;> rfl

/-- **One step**: where the condition holds there is no fault, and the invariant is
    kept. -/
theorem Safe.step (h : Safe E n) (hready : Ready E n e) :
    ∃ n', Node.step E n e = .ok n' ∧ Safe E n' := by
  cases e with
  | receive b =>
      by_cases hphase : n.phase = .running
      · exact ⟨_, step_receive b hphase, h.receive hphase (hready hphase)⟩
      · exact ⟨n, step_receive_idle b hphase, h⟩
  | run call =>
      by_cases hphase : n.phase = .running
      · cases hq : n.queue with
        | nil => exact ⟨n, step_run_nil call hq, h⟩
        | cons m rest =>
            cases m with
            | native b =>
                have huse := h.not_usesTx hphase hq
                cases hs : nativeBlocksHandler E n.converter b with
                | ok s =>
                    exact ⟨_, step_native call hphase hq huse hs, h.native hphase hq hs⟩
                | error err =>
                    exact ⟨_, step_throws call hphase hq huse hs, h.thrown hq⟩
            | evm block =>
                refine ⟨_, step_evm call hphase hq, ?_⟩
                have hmade : (evmBlocksHandler n.execEngine call).1 = true := by
                  rw [evmBlocksHandler_fst, Bool.or_eq_true]
                  by_cases hcall : call = .constructorThrows
                  · -- the pointer is set: the engine is not made again
                    refine Or.inl (h.engine.mpr (hready hphase hcall ⟨.evm block, ?_, rfl⟩))
                    rw [hq]
                    rfl
                  · exact Or.inr (by rw [decide_eq_false hcall]; rfl)
                exact h.evm hphase hq hmade
      · exact ⟨n, step_run_idle call hphase, h⟩
  | shutdown =>
      by_cases hphase : n.phase = .stopped
      · exact ⟨n, step_shutdown_stopped hphase, h⟩
      · have hengine := h.engine.mpr (hready hphase)
        exact ⟨_, step_shutdown hphase hengine, h.stopped⟩

/-! ## Where the condition fails -/

/-- Native blocks that wait before a block that uses the pointer are handled first. -/
theorem feed_null (bs : List NativeBlock) :
    ∀ {n : Node Tx} {rest : List (Message Tx)} {s : State Tx},
      n.phase = .running → n.execEngine = false →
      n.queue = bs.map .native ++ .native b :: rest →
      feed (nativeBlocksHandler E) n.converter bs = .ok s → usesTx E s b = true →
      feed (Node.step E) n (List.replicate (bs.length + 1) (.run .returns))
        = .error .nullEngine := by
  induction bs with
  | nil =>
      intro n rest s hphase hengine hq hfeed huse
      obtain rfl := Except.ok.inj hfeed
      show feed _ _ [_] = _
      rw [feed_cons, step_null .returns hphase hq huse hengine]
      rfl
  | cons c bs ih =>
      intro n rest s hphase hengine hq hfeed huse
      rw [feed_cons] at hfeed
      obtain ⟨t, ht, hfeed⟩ := bind_ok hfeed
      show feed _ _ (_ :: List.replicate (bs.length + 1) _) = _
      rw [feed_cons]
      cases huses : usesTx E n.converter c with
      | true =>
          rw [step_null .returns hphase hq huses hengine]
          rfl
      | false =>
          rw [step_native .returns hphase hq (by rw [huses]; rfl) ht, ok_bind]
          -- what the block publishes comes behind `b`
          have hqueue : (bs.map .native ++ .native b :: rest)
                ++ (publishedSince n.converter t).map .evm
              = bs.map .native ++ .native b ::
                (rest ++ (publishedSince n.converter t).map .evm) := by
            rw [List.append_assoc, List.cons_append]
          exact ih hphase hengine hqueue hfeed huse

theorem Safe.engine_none (h : Safe E n)
    (hwait : ¬ waiting n.queue < n.converter.published.length) :
    n.execEngine = false :=
  Bool.eq_false_iff.mpr fun hengine => hwait (h.engine.mp hengine)

/-- A block that is received too early is handled behind the blocks before it. -/
theorem Safe.fault_receive (h : Safe E n) (hphase : n.phase = .running)
    (hnone : n.converter.published = [])
    (huse : usesTxAfter E n.converter (ExecEngine.leading n.queue) b = true) :
    ∃ more, feed (Node.step E) n (.receive b :: more) = .error .nullEngine := by
  have hle := h.mirrored.waiting_le hphase
  rw [hnone] at hle
  have hengine : n.execEngine = false := by
    refine h.engine_none ?_
    rw [hnone]
    exact Nat.not_lt_zero _
  cases hfeed : feed (nativeBlocksHandler E) n.converter (ExecEngine.leading n.queue) with
  | error err =>
      rw [usesTxAfter, hfeed] at huse
      cases huse
  | ok s =>
      rw [usesTxAfter, hfeed] at huse
      have hqueue : n.queue ++ [.native b]
          = (ExecEngine.leading n.queue).map .native ++ .native b :: [] :=
        congrArg (· ++ [.native b]) (queue_eq_leading (Nat.le_zero.mp hle))
      refine ⟨List.replicate ((ExecEngine.leading n.queue).length + 1) (.run .returns), ?_⟩
      rw [feed_cons, step_receive b hphase, ok_bind]
      exact feed_null (ExecEngine.leading n.queue) hphase hengine hqueue hfeed huse

/-- Where the engine cannot be made, the application quits without one. -/
theorem Safe.fault_constructor {block : Block Tx} (h : Safe E n)
    (hphase : n.phase = .running) (hhead : n.queue.head? = some (.evm block))
    (hwait : ¬ waiting n.queue < n.converter.published.length) :
    feed (Node.step E) n [.run .constructorThrows, .shutdown] = .error .nullEngine := by
  obtain ⟨rest, hq⟩ := List.head?_eq_some_iff.mp hhead
  rw [feed_cons, step_evm _ hphase hq, h.engine_none hwait, ok_bind, feed_cons,
    step_shutdown_null (by rintro ⟨⟩) rfl]
  rfl

/-- **A step that does not meet the condition** can be continued to a fault. -/
theorem Safe.fault (h : Safe E n) (hnot : ¬ Ready E n e) :
    ∃ more, feed (Node.step E) n (e :: more) = .error .nullEngine := by
  cases e with
  | receive b =>
      simp only [Ready, Classical.not_imp, Bool.not_eq_false] at hnot
      obtain ⟨hphase, hnone, huse⟩ := hnot
      exact h.fault_receive hphase hnone huse
  | run call =>
      simp only [Ready, Classical.not_imp] at hnot
      obtain ⟨hphase, rfl, ⟨m, hm, hevm⟩, hwait⟩ := hnot
      cases m with
      | native b => cases hevm
      | evm block => exact ⟨[.shutdown], h.fault_constructor hphase hm hwait⟩
  | shutdown =>
      simp only [Ready, Classical.not_imp] at hnot
      obtain ⟨hphase, hwait⟩ := hnot
      refine ⟨[], ?_⟩
      rw [feed_cons, step_shutdown_null hphase (h.engine_none hwait)]
      rfl

end Steps

/-- **The engine is there when it is used**, in every run whose steps all meet the
    condition; and a step that does not meet it can be continued to a use of the
    null pointer. -/
theorem exec_engine_ready {X : Externals Tx} {db : ChainData Tx}
    {height : Option Nat} {startBlock : Block Tx} {E : Env Tx} {s₀ : State Tx}
    (hload : Loaded X db height startBlock E s₀) :
    (∀ events, Offered (Node.step E) (Ready E) (Node.start s₀) events →
      ∃ n, feed (Node.step E) (Node.start s₀) events = .ok n) ∧
    ∀ events n e, Reach (Node.step E) (Ready E) (Node.start s₀) events n →
      ¬ Ready E n e →
      ∃ more, feed (Node.step E) n (e :: more) = .error .nullEngine := by
  obtain ⟨evmLib₀, rfl⟩ := hload.initial
  have hstart : Safe E (Node.start (initialState startBlock evmLib₀)) :=
    safe_start E startBlock rfl
  constructor
  · intro events hoffered
    obtain ⟨n, hn, -⟩ := Offered.total (P := Safe E)
      (fun n e hn he => hn.step he) hstart hoffered
    exact ⟨n, hn⟩
  · intro events n e hrun hnot
    have hn : Safe E n := by
      refine hrun.invariant hstart ?_
      intro n e n' hn he hstep
      obtain ⟨m, hm, hsafe⟩ := hn.step he
      obtain rfl := Except.ok.inj (hm.symm.trans hstep)
      exact hsafe
    exact hn.fault hnot

/-! ## A configuration change -/

/-- Block `blockNum` on top of the one before it, with a configuration. -/
def plainConfig (blockNum halfSeconds : Nat) : NativeBlock :=
  { plainNative blockNum 0 0 halfSeconds 0 [] with
    newConfig := some {
      ordinal := 1
      receiver := Name.ofChars ['e', 'v', 'm']
      account := Name.ofChars ['e', 'v', 'm']
      name := configchangeN
      data := 0 :: (List.replicate 5 (littleEndian 7)).flatten } }

/-- Native block 2 publishes EVM blocks 0 and 1; then a configuration change
    arrives, and is handled behind them. -/
def plainEvents : List Event :=
  [.receive (plainNative 2 0 0 22 0 []), .run .returns,
   .receive (plainConfig 3 24),
   .run .returns, .run .returns, .run .returns, .shutdown]

theorem exec_engine_ready_plainEvents :
    ∃ n, feed (Node.step plainEnv) (Node.start (initialState plainGenesis 0))
        plainEvents = .ok n ∧
      n.converter.consensusParameters.length = 1 := by
  have hcheck : checkRun (Node.step plainEnv) (Ready plainEnv)
      (Node.start (initialState plainGenesis 0)) plainEvents = true := by decide +kernel
  obtain ⟨n, hn⟩ := (exec_engine_ready (plainEnv_loaded 0)).1 plainEvents
    (offered_of_checkRun hcheck)
  refine ⟨n, hn, ?_⟩
  have hlength : (feed (Node.step plainEnv) (Node.start (initialState plainGenesis 0))
      plainEvents).map (fun n => n.converter.consensusParameters.length) = .ok 1 := by
    decide +kernel
  rw [hn] at hlength
  exact Except.ok.inj hlength

/-- **The engine is used before it exists**: the first native block changes the
    configuration, or the plugin is shut down before an EVM block has been
    handled. -/
theorem not_ready_plainConfig :
    feed (Node.step plainEnv) (Node.start (initialState plainGenesis 0))
      [.receive (plainConfig 2 24), .run .returns] = .error .nullEngine ∧
    feed (Node.step plainEnv) (Node.start (initialState plainGenesis 0))
      [.shutdown] = .error .nullEngine ∧
    feed (Node.step plainEnv) (Node.start (initialState plainGenesis 0))
      [.receive (plainNative 2 0 0 22 0 []), .run .returns, .shutdown]
        = .error .nullEngine := by
  refine ⟨?_, ?_, ?_⟩
  · decide +kernel
  · decide +kernel
  · decide +kernel

end Blockchain.ExecEngine
