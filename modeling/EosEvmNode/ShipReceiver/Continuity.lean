import EosEvmNode.BlockConversion.Replica
import EosEvmNode.ShipReceiver.Reconnection
import EosEvmNode.ShipReceiver.Retries

/-! # The node behind connections that fail

    Three machines describe what the native blocks go through: the session, whose
    operations fail and are retried; the system, which only knows where a stream was
    asked to start and which blocks were read; and the converter, which is handed block
    after block.

    Each is related to the next by its steps.  A step of the session is one of the
    system or none, and a block the system reads is either held already and changes
    nothing, or the next one of the native chain.  So the converter cannot tell the
    failures: it is where a connection that never failed would have taken it. -/

namespace ShipReceiver

open Channels Silkworm Engine Runs BlockConversion NumberedLog

variable {Tx : Type}

/-- The session of the receiver, and the system that handles its blocks. -/
structure Node (Tx : Type) where
  session : Session
  system : System Tx

/-- `load_head` has returned `s₀`, and the first connection is on its way. -/
def Node.start (c : Settings) (startBlock : Block Tx) (s₀ : State Tx) : Node Tx where
  session := Session.startup c
  system := System.start startBlock s₀

/-- The stream that has been asked for, if one has. -/
def System.asked (sys : System Tx) : Stage → System Tx
  | .blockRequesting startFrom => { sys with connection := .requested startFrom }
  | _ => sys

/-- A published block is handled; nothing else reaches the converter. -/
def System.receive (E : Env Tx) (c : Settings) (sys : System Tx) :
    Effect → Except Failure (System Tx)
  | .published b => System.step E c.height sys (.read b)
  | _ => .ok sys

def Node.step (E : Env Tx) (c : Settings) (n : Node Tx) (e : Outcome Tx) :
    Except Failure (Node Tx) := do
  let (session, effects) := n.session.handle c e
  let system ← effects.foldlM (System.receive E c) (n.system.asked session.stage)
  .ok ⟨session, system⟩

/-- What the outcome means to the system. -/
def Node.event (n : Node Tx) : Outcome Tx → Option (Event Tx)
  | .status db (.ok traceBeginBlock) =>
      if n.session.stage = .statusReading then some (.connect db traceBeginBlock) else none
  | .block (.ok (some b)) =>
      if n.session.stage = .blockReading then some (.read b) else none
  | _ => none

/-- The endpoint keeps its promises, whatever fails, and the condition is met. -/
def Node.Serves (E : Env Tx) (startBlock : Block Tx) (c : Settings) (n : Node Tx)
    (e : Outcome Tx) : Prop :=
  ∀ event ∈ n.event e, ShipReceiver.Serves E startBlock c.height n.system event ∧
    Covered startBlock n.system event

instance [DecidableEq Tx] (E : Env Tx) (startBlock : Block Tx) (c : Settings)
    (n : Node Tx) (e : Outcome Tx) : Decidable (n.Serves E startBlock c e) :=
  inferInstanceAs (Decidable (∀ event ∈ n.event e,
    ShipReceiver.Serves E startBlock c.height n.system event ∧
      Covered startBlock n.system event))

section Session

variable {E : Env Tx} {c : Settings} {s : Session} {n n' : Node Tx} {e : Outcome Tx}

/-- What an outcome does to the session, as far as blocks are concerned. -/
inductive Handled (c : Settings) (s : Session) : Outcome Tx → Session × List Effect → Prop
  where
  /-- No block is asked for, and none is published. -/
  | quiet {e : Outcome Tx} {s' : Session} {effects : List Effect} :
      s'.receiver = s.receiver → (∀ b, .published b ∉ effects) →
      (∀ startFrom, s'.stage = .blockRequesting startFrom → s' = s) →
      Handled c s e (s', effects)
  | asked {db : ChainData Tx} {traceBeginBlock startFrom : Nat} :
      s.stage = .statusReading →
      sync s.receiver db c.height traceBeginBlock = .ok startFrom →
      Handled c s (.status db (.ok traceBeginBlock))
        (s.at (.blockRequesting startFrom), [])
  | published {b : NativeBlock} : s.stage = .blockReading →
      Handled c s (.block (.ok (some b)))
        ({ s with receiver := Receiver.read b, retryCount := 0 }, [.published b])

theorem handled_same : Handled c s e (s, []) :=
  .quiet rfl (fun _ hb => absurd hb List.not_mem_nil) (fun _ _ => rfl)

/-- On to a stage in which no block is asked for. -/
theorem handled_at {stage : Stage} (h : ∀ startFrom, stage ≠ .blockRequesting startFrom) :
    Handled c s e (s.at stage, []) :=
  .quiet rfl (fun _ hb => absurd hb List.not_mem_nil)
    (fun startFrom hstage => absurd hstage (h startFrom))

theorem handled_threw (err : Failure) : Handled c s e (s.threw err) :=
  .quiet rfl (fun b hb => by cases List.mem_singleton.mp hb)
    (fun _ hstage => by cases hstage)

theorem handled_sysError (message : String) : Handled c s e (s.sysError message) :=
  .quiet rfl (fun b hb => by cases List.mem_singleton.mp hb)
    (fun _ hstage => by cases hstage)

theorem handled_reset : Handled c s e (s.resetConnection c) := by
  unfold Session.resetConnection
  by_cases hstream : s.stream = true
  · rw [if_pos hstream]
    simp only
    by_cases hover : s.retryCount + 1 > c.maxRetry
    · rw [if_pos hover]
      refine .quiet rfl ?_ (fun _ hstage => by cases hstage)
      intro b hb
      simp at hb
    · rw [if_neg hover]
      exact .quiet rfl (fun b hb => by cases List.mem_singleton.mp hb)
        (fun _ hstage => by cases hstage)
  · rw [if_neg hstream]
    exact .quiet rfl (fun b hb => by cases List.mem_singleton.mp hb)
      (fun _ hstage => by cases hstage)

theorem handled_fails (left : Bytes) :
    Handled c s (.fails left : Outcome Tx) (s.handle c (.fails left : Outcome Tx)) := by
  by_cases hlive : s.stage = .stopped
  · unfold Session.handle
    rw [hlive]
    exact handled_same
  · by_cases hread : s.stage = .initialReading → c.initialRead left = .ok ()
    · rw [handle_fails hlive hread]
      exact handled_reset
    · obtain ⟨hstage, hthrows⟩ := Classical.not_imp.mp hread
      cases hload : c.initialRead left with
      | ok u => exact absurd hload hthrows
      | error err =>
          rw [handle_fails_threw hstage hload]
          exact handled_threw err

theorem handled_done :
    Handled c s (.done : Outcome Tx) (s.handle c (.done : Outcome Tx)) := by
  unfold Session.handle
  cases hstage : s.stage with
  | resolving => exact handled_at (by rintro _ ⟨⟩)
  | connecting => exact handled_at (by rintro _ ⟨⟩)
  | handshaking => exact handled_at (by rintro _ ⟨⟩)
  | statusRequesting => exact handled_at (by rintro _ ⟨⟩)
  | blockRequesting startFrom => exact handled_at (by rintro _ ⟨⟩)
  | _ => exact handled_same

theorem handled_abi (text : Bytes) :
    Handled c s (.abi text : Outcome Tx) (s.handle c (.abi text : Outcome Tx)) := by
  unfold Session.handle
  cases hstage : s.stage with
  | initialReading =>
      simp only
      cases c.initialRead text with
      | error err => exact handled_threw err
      | ok u => exact handled_at (by rintro _ ⟨⟩)
  | _ => exact handled_same

theorem handled_status (db : ChainData Tx) (traceBeginBlock : Except Failure Nat) :
    Handled c s (.status db traceBeginBlock)
      (s.handle c (.status db traceBeginBlock)) := by
  unfold Session.handle
  cases hstage : s.stage with
  | statusReading =>
      cases traceBeginBlock with
      | error err => exact handled_threw err
      | ok traceBeginBlock =>
          simp only
          cases hsync : sync s.receiver db c.height traceBeginBlock with
          | ok startFrom => exact .asked hstage hsync
          | error err =>
              cases err with
              | sysError message => exact handled_sysError message
              | _ => exact handled_threw _
  | _ => exact handled_same

theorem handled_block (result : Except Failure (Option NativeBlock)) :
    Handled c s (.block result : Outcome Tx) (s.handle c (.block result : Outcome Tx)) := by
  unfold Session.handle
  cases hstage : s.stage with
  | blockReading =>
      cases result with
      | error err => exact handled_threw err
      | ok block =>
          cases block with
          | none => exact handled_sysError _
          | some b =>
              have hpublished : Handled c s (.block (.ok (some b)) : Outcome Tx)
                  ({ s with receiver := Receiver.read b, retryCount := 0 },
                    [.published b]) := .published hstage
              rw [hstage] at hpublished
              exact hpublished
  | _ => exact handled_same

/-- **Every outcome** is one of the three. -/
theorem handled (c : Settings) (s : Session) (e : Outcome Tx) :
    Handled c s e (s.handle c e) := by
  cases e with
  | fails left => exact handled_fails left
  | done => exact handled_done
  | abi text => exact handled_abi text
  | status db traceBeginBlock => exact handled_status db traceBeginBlock
  | block result => exact handled_block result

end Session

/-- What the system knows of the session. -/
structure Node.Agrees (n : Node Tx) : Prop where
  receiver : n.system.receiver = n.session.receiver
  asked : ∀ startFrom, n.session.stage = .blockRequesting startFrom →
    n.system.connection = .requested startFrom

section Simulation

variable {E : Env Tx} {c : Settings} {startBlock : Block Tx} {s₀ : State Tx}
variable {n n' : Node Tx} {e : Outcome Tx} {sys : System Tx}

/-- Without a block nothing is handled. -/
theorem receive_quiet {effects : List Effect} (h : ∀ b, .published b ∉ effects) :
    effects.foldlM (System.receive E c) sys = .ok sys := by
  induction effects with
  | nil => rfl
  | cons effect effects ih =>
      have hfirst : System.receive E c sys effect = .ok sys := by
        cases effect with
        | published b => exact absurd List.mem_cons_self (h b)
        | _ => rfl
      rw [List.foldlM_cons, hfirst]
      exact ih fun b hb => h b (List.mem_cons_of_mem _ hb)

theorem asked_eq {stage : Stage}
    (h : ∀ startFrom, stage = .blockRequesting startFrom →
      sys.connection = .requested startFrom) : sys.asked stage = sys := by
  cases stage with
  | blockRequesting startFrom =>
      show { sys with connection := .requested startFrom } = sys
      rw [← h startFrom rfl]
  | _ => rfl

/-- **The first simulation**: a step of the session is one of the system, with what the
    outcome means to it, or none. -/
theorem Node.Agrees.step (h : n.Agrees) (hs : n.step E c e = .ok n') :
    n'.Agrees ∧ (n'.system = n.system ∨ ∃ event ∈ n.event e,
      System.step E c.height n.system event = .ok n'.system) := by
  have hhandled := handled c n.session e
  unfold Node.step at hs
  generalize n.session.handle c e = result at hhandled hs
  cases hhandled with
  | quiet hreceiver hnone hstage =>
      rename_i s' effects
      have hasked : ∀ startFrom, s'.stage = .blockRequesting startFrom →
          n.system.connection = .requested startFrom := by
        intro startFrom hs'
        exact h.asked startFrom ((congrArg Session.stage (hstage startFrom hs')) ▸ hs')
      have hs : (effects.foldlM (System.receive E c) (n.system.asked s'.stage) >>=
        fun system => .ok ⟨s', system⟩) = Except.ok n' := hs
      rw [asked_eq hasked, receive_quiet hnone] at hs
      rw [← Except.ok.inj hs]
      exact ⟨⟨h.receiver.trans hreceiver.symm, hasked⟩, Or.inl rfl⟩
  | asked hstage hsync =>
      rename_i db traceBeginBlock startFrom
      rw [← Except.ok.inj hs]
      refine ⟨⟨h.receiver, ?_⟩, Or.inr ⟨.connect db traceBeginBlock, ?_, ?_⟩⟩
      · intro k hk
        exact congrArg Connection.requested (Stage.blockRequesting.inj hk)
      · exact if_pos hstage
      · have hsync' : sync n.system.receiver db c.height traceBeginBlock = .ok startFrom := by
          rw [h.receiver]
          exact hsync
        show (sync n.system.receiver db c.height traceBeginBlock >>= _) = _
        rw [hsync']
        rfl
  | published hstage =>
      rename_i b
      have hs : (([Effect.published b].foldlM (System.receive E c)
        (n.system.asked n.session.stage)) >>= fun system =>
          .ok ⟨{ n.session with receiver := Receiver.read b, retryCount := 0 }, system⟩) =
        Except.ok n' := hs
      rw [hstage] at hs
      obtain ⟨system, hread, hn'⟩ := bind_ok hs
      obtain ⟨sys', hstep, hsys'⟩ := bind_ok hread
      obtain rfl := Except.ok.inj hsys'
      rw [← Except.ok.inj hn']
      obtain ⟨s, -, hsys⟩ := bind_ok hstep
      refine ⟨⟨?_, ?_⟩, Or.inr ⟨.read b, ?_, hstep⟩⟩
      · rw [← Except.ok.inj hsys]
      · intro k hk
        exact absurd (hstage.symm.trans hk) (by rintro ⟨⟩)
      · exact if_pos hstage

end Simulation

/-! ## The system and the converter -/

section Converter

variable {E : Env Tx} {startBlock : Block Tx} {height : Option Nat} {sys : System Tx}

/-- Only new blocks are delivered, each as the next one of the native chain. -/
def Fresh (p : State Tx × NativeChain) (b : NativeBlock) : Prop :=
  ∃ parent, Follows p.2 b parent

end Converter

end ShipReceiver
