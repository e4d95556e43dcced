import EosEvmNode.ShipReceiver.Sync
import EosEvmNode.Lib.Runs

/-! # Connections that fail

    The operations on the connection follow each other, from resolving the endpoint
    to reading blocks, and any of them may fail.  Each failure should call
    `reset_connection` once, which gives up after `max_retry` failures without a
    block in between.

    `initial_read` loads the ABI from whatever has arrived before it returns the error
    of its read; a text that is no ABI raises an exception that nobody catches.  And
    the counter is a `uint32_t`, so the largest `max_retry` is never exceeded. -/

namespace ShipReceiver

open Channels Silkworm Engine Runs

variable {Tx : Type}

/-- The options, and `load_abi`. -/
structure Settings where
  maxRetry : UInt32
  height : Option Nat
  loadAbi : Bytes → Except Failure Unit

/-- The operation that is under way. -/
inductive Stage where
  | resolving
  | connecting
  | handshaking
  | initialReading
  | statusRequesting
  | statusReading
  | blockRequesting (startFrom : Nat)
  | blockReading
  /-- The application quits, or an exception has ended it. -/
  | stopped
  deriving DecidableEq, Repr

/-- `stream` says whether there is a stream to close. -/
structure Session where
  receiver : Receiver
  stream : Bool
  retryCount : UInt32
  stage : Stage

/-- How an operation ends. -/
inductive Outcome (Tx : Type) where
  /-- With an error code, and with what is left in the receive buffer. -/
  | fails (left : Bytes)
  | done
  /-- The first message. -/
  | abi (text : Bytes)
  /-- The status, or what reading it throws, with the database as it is then. -/
  | status (db : ChainData Tx) (traceBeginBlock : Except Failure Nat)
  /-- A message with a block, or what converting it throws. -/
  | block (result : Except Failure (Option NativeBlock))

/-- What is done besides. -/
inductive Effect where
  /-- `reset_connection` is called. -/
  | reset
  /-- `sys::error`. -/
  | quit (message : String)
  /-- An exception leaves the handler. -/
  | threw (e : Failure)
  | published (b : NativeBlock)
  deriving DecidableEq

def maxRetryReached : String := "Max retry reached. No more reconnections."

/-- What `init` sets. -/
def Session.init : Session where
  receiver := Receiver.init
  stream := false
  retryCount := 0
  stage := .stopped

def Session.at (s : Session) (stage : Stage) : Session := { s with stage := stage }

def Session.resetConnection (c : Settings) (s : Session) : Session × List Effect :=
  if s.stream then
    let s := { s with retryCount := s.retryCount + 1 }
    if s.retryCount > c.maxRetry then (s.at .stopped, [.reset, .quit maxRetryReached])
    else (s.at .resolving, [.reset])
  else ({ s with stream := true, stage := .resolving }, [.reset])

/-- `plugin_startup`. -/
def Session.startup (c : Settings) : Session := (Session.init.resetConnection c).1

/-- The text of a C string. -/
def cString (bytes : Bytes) : Bytes := bytes.takeWhile (· ≠ 0)

/-- `initial_read`, once the read has returned: the buffer is terminated and loaded. -/
def Settings.initialRead (c : Settings) (buffer : Bytes) : Except Failure Unit :=
  c.loadAbi (cString (buffer ++ [0]))

def Session.threw (s : Session) (e : Failure) : Session × List Effect :=
  (s.at .stopped, [.threw e])

def Session.sysError (s : Session) (message : String) : Session × List Effect :=
  (s.at .stopped, [.quit message])

/-- The operation under way ends, and the next one is started. -/
def Session.handle (c : Settings) (s : Session) (e : Outcome Tx) :
    Session × List Effect :=
  match s.stage, e with
  | .stopped, _ => (s, [])
  -- the handler of `async_resolve`, and `connect_stream`
  | .resolving, .done => (s.at .connecting, [])
  | .connecting, .done => (s.at .handshaking, [])
  | .handshaking, .done => (s.at .initialReading, [])
  -- the ABI is loaded before the error of the read is looked at
  | .initialReading, .fails left =>
      match c.initialRead left with
      | .error e => s.threw e
      | .ok () => s.resetConnection c
  | .initialReading, .abi text =>
      match c.initialRead text with
      | .error e => s.threw e
      | .ok () => (s.at .statusRequesting, [])
  -- `sync`
  | .statusRequesting, .done => (s.at .statusReading, [])
  | .statusReading, .status _ (.error e) => s.threw e
  | .statusReading, .status db (.ok traceBeginBlock) =>
      match sync s.receiver db c.height traceBeginBlock with
      | .error (.sysError message) => s.sysError message
      | .error e => s.threw e
      | .ok startFrom => (s.at (.blockRequesting startFrom), [])
  | .blockRequesting _, .done => (s.at .blockReading, [])
  -- `start_read`
  | .blockReading, .block (.error e) => s.threw e
  | .blockReading, .block (.ok none) => s.sysError "Unable to generate native block"
  | .blockReading, .block (.ok (some b)) =>
      ({ s with receiver := Receiver.read b, retryCount := 0 }, [.published b])
  | _, .fails _ => s.resetConnection c
  | _, _ => (s, [])

/-! ## Failures and what they lead to -/

/-- The failures since the last delivered block, or since startup. -/
def failuresAfter (s : Session) (failures : Nat) : Outcome Tx → Nat
  | .fails _ => if s.stage = .stopped then failures else failures + 1
  | .block (.ok (some _)) => if s.stage = .blockReading then 0 else failures
  | _ => failures

/-- The session together with that number. -/
def countedStep (c : Settings) (p : Session × Nat) (e : Outcome Tx) :
    Except Failure (Session × Nat) :=
  .ok ((p.1.handle c e).1, failuresAfter p.1 p.2 e)

def Effect.isReset : Effect → Bool
  | .reset => true
  | _ => false

/-- A failure after `failures` others is retried: one call of `reset_connection`, no
    exception, and the end when the budget is used up. -/
structure Retried (c : Settings) (failures : Nat) (effects : List Effect) : Prop where
  reset : (effects.filter Effect.isReset).length = 1
  no_throw : ∀ e, .threw e ∉ effects
  budget : .quit maxRetryReached ∈ effects ↔ failures = c.maxRetry.toNat

section Sessions

variable {c : Settings} {s : Session}

theorem sync_error {r : Receiver} {db : ChainData Tx} {height : Option Nat}
    {traceBeginBlock : Nat} {message : String}
    (h : sync r db height traceBeginBlock = .error (.sysError message)) :
    message ≠ maxRetryReached := by
  have hcheck : ∀ {startFrom : Nat},
      (if traceBeginBlock > startFrom then
        Except.error (.sysError "Start block not available in SHiP")
      else .ok startFrom : Except Failure Nat) = .error (.sysError message) →
      message ≠ maxRetryReached := by
    intro startFrom h
    split at h
    · obtain rfl := Failure.sysError.inj (Except.error.inj h)
      decide
    · cases h
  unfold sync at h
  split at h
  · exact hcheck h
  · split at h
    · obtain rfl := Failure.sysError.inj (Except.error.inj h)
      decide
    · exact hcheck h

/-- A failure resets the connection, unless loading the ABI raises. -/
theorem handle_fails {left : Bytes} (hlive : s.stage ≠ .stopped)
    (hread : s.stage = .initialReading → c.initialRead left = .ok ()) :
    s.handle c (.fails left : Outcome Tx) = s.resetConnection c := by
  unfold Session.handle
  cases hstage : s.stage with
  | stopped => exact absurd hstage hlive
  | initialReading => simp only [hread hstage]
  | _ => rfl

theorem handle_fails_threw {left : Bytes} {e : Failure}
    (hstage : s.stage = .initialReading) (hread : c.initialRead left = .error e) :
    s.handle c (.fails left : Outcome Tx) = s.threw e := by
  unfold Session.handle
  simp only [hstage, hread]

/-- What an outcome that is no failure may do: it stops the session, goes on to
    another stage, or delivers a block. -/
inductive Continues (s : Session) (failures : Nat) :
    Session × List Effect → Nat → Prop where
  | same : Continues s failures (s, []) failures
  | stage (stage : Stage) (live : s.stage ≠ .stopped) :
      Continues s failures (s.at stage, []) failures
  | threw (e : Failure) : Continues s failures (s.threw e) failures
  | quit (message : String) (other : message ≠ maxRetryReached) :
      Continues s failures (s.sysError message) failures
  | delivered (b : NativeBlock) :
      Continues s failures
        ({ s with receiver := Receiver.read b, retryCount := 0 }, [.published b]) 0

theorem handle_done (failures : Nat) :
    Continues s failures (s.handle c (.done : Outcome Tx)) failures := by
  unfold Session.handle
  cases hstage : s.stage with
  | resolving => exact .stage _ (by rw [hstage]; rintro ⟨⟩)
  | connecting => exact .stage _ (by rw [hstage]; rintro ⟨⟩)
  | handshaking => exact .stage _ (by rw [hstage]; rintro ⟨⟩)
  | statusRequesting => exact .stage _ (by rw [hstage]; rintro ⟨⟩)
  | blockRequesting startFrom => exact .stage _ (by rw [hstage]; rintro ⟨⟩)
  | _ => exact .same

theorem handle_abi (failures : Nat) (text : Bytes) :
    Continues s failures (s.handle c (.abi text : Outcome Tx)) failures := by
  unfold Session.handle
  cases hstage : s.stage with
  | initialReading =>
      simp only
      cases c.initialRead text with
      | error e => exact .threw e
      | ok u => exact .stage _ (by rw [hstage]; rintro ⟨⟩)
  | _ => exact .same

theorem handle_status (failures : Nat) (db : ChainData Tx)
    (traceBeginBlock : Except Failure Nat) :
    Continues s failures (s.handle c (.status db traceBeginBlock)) failures := by
  unfold Session.handle
  cases hstage : s.stage with
  | statusReading =>
      cases traceBeginBlock with
      | error e => exact .threw e
      | ok traceBeginBlock =>
          simp only
          cases hsync : sync s.receiver db c.height traceBeginBlock with
          | ok startFrom => exact .stage _ (by rw [hstage]; rintro ⟨⟩)
          | error e =>
              cases e with
              | sysError message => exact .quit message (sync_error hsync)
              | _ => exact .threw _
  | _ => exact .same

/-- A block that is read sets both counters to zero; elsewhere nothing happens. -/
theorem handle_block (failures : Nat) (result : Except Failure (Option NativeBlock)) :
    Continues s failures (s.handle c (.block result : Outcome Tx))
      (failuresAfter s failures (.block result : Outcome Tx)) := by
  by_cases hstage : s.stage = .blockReading
  · unfold Session.handle
    cases result with
    | error e =>
        simp only [hstage]
        exact .threw e
    | ok block =>
        cases block with
        | none =>
            simp only [hstage]
            exact .quit _ (by decide)
        | some b =>
            rw [failuresAfter, if_pos hstage]
            simp only [hstage]
            have hdelivered : Continues s failures _ 0 := .delivered b
            rw [hstage] at hdelivered
            exact hdelivered
  · have hsame : failuresAfter s failures (.block result : Outcome Tx) = failures := by
      cases result with
      | error e => rfl
      | ok block =>
          cases block with
          | none => rfl
          | some b => rw [failuresAfter, if_neg hstage]
    have hidle : s.handle c (.block result : Outcome Tx) = (s, []) := by
      unfold Session.handle
      cases hs : s.stage with
      | blockReading => exact absurd hs hstage
      | _ => rfl
    rw [hsame, hidle]
    exact .same

/-- **An outcome that is no failure** resets nothing. -/
theorem handle_continues {e : Outcome Tx} (hnot : ∀ left, e ≠ .fails left)
    (failures : Nat) :
    Continues s failures (s.handle c e) (failuresAfter s failures e) := by
  cases e with
  | fails left => exact absurd rfl (hnot left)
  | done => exact handle_done failures
  | abi text => exact handle_abi failures text
  | status db traceBeginBlock => exact handle_status failures db traceBeginBlock
  | block result => exact handle_block failures result

/-! ## The counter -/

/-- While the session goes on, the counter is the number of failures, in 32 bits, and
    the budget is not used up. -/
structure Counted (c : Settings) (s : Session) (failures : Nat) : Prop where
  stream : s.stream = true
  counter : s.retryCount.toNat = failures % 2 ^ 32
  within : c.maxRetry.toNat + 1 < 2 ^ 32 → failures ≤ c.maxRetry.toNat

theorem counted_startup (c : Settings) : Counted c (Session.startup c) 0 :=
  ⟨rfl, rfl, fun _ => Nat.zero_le _⟩

theorem retryCount_succ {n failures : Nat} {r : UInt32} (h : r.toNat = failures % 2 ^ 32)
    (hn : n = failures + 1) : (r + 1).toNat = n % 2 ^ 32 := by
  rw [UInt32.toNat_add, h, hn]
  show (failures % 2 ^ 32 + 1) % 2 ^ 32 = (failures + 1) % 2 ^ 32
  omega

/-- **One reset** gives up when the counter passes the budget, and goes on otherwise. -/
theorem Counted.reset {failures : Nat} (h : Counted c s failures) :
    (c.maxRetry.toNat + 1 < 2 ^ 32 ∧ failures = c.maxRetry.toNat ∧
      (s.resetConnection c).2 = [.reset, .quit maxRetryReached] ∧
      (s.resetConnection c).1.stage = .stopped) ∨
    ((c.maxRetry.toNat + 1 < 2 ^ 32 → failures ≠ c.maxRetry.toNat) ∧
      (s.resetConnection c).2 = [.reset] ∧
      (s.resetConnection c).1.stage = .resolving ∧
      Counted c (s.resetConnection c).1 (failures + 1)) := by
  have hcounter := retryCount_succ h.counter rfl
  have hlt := c.maxRetry.toNat_lt
  rw [Session.resetConnection, if_pos h.stream]
  simp only
  by_cases hover : s.retryCount + 1 > c.maxRetry
  · rw [if_pos hover]
    have hover' : c.maxRetry.toNat < (s.retryCount + 1).toNat := hover
    have hwithin : c.maxRetry.toNat + 1 < 2 ^ 32 := by omega
    have := h.within hwithin
    exact Or.inl ⟨hwithin, by omega, rfl, rfl⟩
  · rw [if_neg hover]
    have hover' : ¬ c.maxRetry.toNat < (s.retryCount + 1).toNat := hover
    refine Or.inr ⟨?_, rfl, rfl, h.stream, hcounter, ?_⟩
    · intro hwithin
      have := h.within hwithin
      omega
    · intro hwithin
      have := h.within hwithin
      omega

/-- **The step lemma**: a session that goes on is counted. -/
theorem Counted.step {failures : Nat} (h : s.stage ≠ .stopped → Counted c s failures)
    (e : Outcome Tx) (hlive : (s.handle c e).1.stage ≠ .stopped) :
    Counted c (s.handle c e).1 (failuresAfter s failures e) := by
  by_cases hfails : ∃ left, e = .fails left
  · obtain ⟨left, rfl⟩ := hfails
    have hstage : s.stage ≠ .stopped := by
      intro hstopped
      refine hlive ?_
      unfold Session.handle
      simp only [hstopped]
    rw [failuresAfter, if_neg hstage]
    by_cases hread : s.stage = .initialReading → c.initialRead left = .ok ()
    · rw [handle_fails hstage hread] at hlive ⊢
      rcases (h hstage).reset with ⟨-, -, -, hstopped⟩ | ⟨-, -, -, hcounted⟩
      · exact absurd hstopped hlive
      · exact hcounted
    · obtain ⟨hinitial, hthrows⟩ := Classical.not_imp.mp hread
      cases hload : c.initialRead left with
      | ok u => exact absurd hload hthrows
      | error e =>
          rw [handle_fails_threw hinitial hload] at hlive
          exact absurd rfl hlive
  · have hcontinues := handle_continues (c := c) (s := s)
      (fun left heq => hfails ⟨left, heq⟩) failures
    revert hlive hcontinues
    generalize s.handle c e = result
    generalize failuresAfter s failures e = failures'
    intro hlive hcontinues
    cases hcontinues with
    | same => exact h hlive
    | stage stage live =>
        obtain ⟨hstream, hcounter, hwithin⟩ := h live
        exact ⟨hstream, hcounter, hwithin⟩
    | threw e => exact absurd rfl hlive
    | quit message other => exact absurd rfl hlive
    | delivered b =>
        exact ⟨(h hlive).stream, rfl, fun _ => Nat.zero_le _⟩

/-- **The run lemma.** -/
theorem counted_reach {es : List (Outcome Tx)} {p : Session × Nat}
    (hrun : Reach (countedStep c) (fun _ _ => True) (Session.startup c, 0) es p)
    (hlive : p.1.stage ≠ .stopped) : Counted c p.1 p.2 := by
  have hinv : p.1.stage ≠ .stopped → Counted c p.1 p.2 :=
    hrun.invariant (P := fun p => p.1.stage ≠ .stopped → Counted c p.1 p.2)
      (fun _ => counted_startup c) (by
        intro p e p' hp _ hstep
        obtain rfl := Except.ok.inj hstep
        exact Counted.step hp e)
  exact hinv hlive

end Sessions

/-- **Every failure is retried, and the budget is exact**, exactly when the text that a
    failing initial read leaves is an ABI, and the failure is not the 2^32-th one under
    the largest budget.  Nothing but a failure resets the connection or exhausts the
    budget. -/
theorem retried_iff {c : Settings} {es : List (Outcome Tx)} {p : Session × Nat}
    (hrun : Reach (countedStep c) (fun _ _ => True) (Session.startup c, 0) es p) :
    (∀ left, p.1.stage ≠ .stopped →
      (Retried c p.2 (p.1.handle c (.fails left : Outcome Tx)).2 ↔
        (p.1.stage = .initialReading → c.initialRead left = .ok ()) ∧
          ¬ (p.2 = c.maxRetry.toNat ∧ c.maxRetry.toNat + 1 = 2 ^ 32))) ∧
    ∀ e : Outcome Tx, (∀ left, e ≠ .fails left) →
      .reset ∉ (p.1.handle c e).2 ∧ .quit maxRetryReached ∉ (p.1.handle c e).2 := by
  refine ⟨?_, ?_⟩
  · intro left hlive
    have hcounted := counted_reach hrun hlive
    have hlt := c.maxRetry.toNat_lt
    by_cases hread : p.1.stage = .initialReading → c.initialRead left = .ok ()
    · rw [handle_fails hlive hread]
      rcases hcounted.reset with ⟨hwithin, hlast, heffects, -⟩ | ⟨hmore, heffects, -⟩
      · rw [heffects]
        refine iff_of_true ⟨rfl, by simp, by simp [hlast]⟩ ⟨hread, ?_⟩
        omega
      · rw [heffects]
        constructor
        · intro hretried
          refine ⟨hread, ?_⟩
          rintro ⟨hlast, -⟩
          have hquit := hretried.budget.mpr hlast
          simp at hquit
        · rintro ⟨-, hnot⟩
          refine ⟨rfl, by simp, iff_of_false (by simp) ?_⟩
          intro hlast
          by_cases hwithin : c.maxRetry.toNat + 1 < 2 ^ 32
          · exact hmore hwithin hlast
          · exact hnot ⟨hlast, by omega⟩
    · refine iff_of_false ?_ (fun hboth => hread hboth.1)
      obtain ⟨hinitial, hthrows⟩ := Classical.not_imp.mp hread
      cases hload : c.initialRead left with
      | ok u => exact absurd hload hthrows
      | error e =>
          rw [handle_fails_threw hinitial hload]
          intro hretried
          exact hretried.no_throw e List.mem_cons_self
  · intro e hnot
    have hcontinues := handle_continues (c := c) (s := p.1) hnot p.2
    revert hcontinues
    generalize p.1.handle c e = result
    generalize failuresAfter p.1 p.2 e = failures'
    intro hcontinues
    cases hcontinues with
    | quit message other =>
        refine ⟨by simp [Session.sysError], ?_⟩
        intro hquit
        exact other (Effect.quit.inj (List.mem_singleton.mp hquit)).symm
    | same => exact ⟨List.not_mem_nil, List.not_mem_nil⟩
    | stage stage live => exact ⟨List.not_mem_nil, List.not_mem_nil⟩
    | threw e => exact ⟨by simp [Session.threw], by simp [Session.threw]⟩
    | delivered b => exact ⟨by simp, by simp⟩

/-! ## A connection that is lost while it sends the ABI -/

/-- Two retries; a text that starts with an opening brace is an ABI. -/
def plainSettings : Settings where
  maxRetry := 2
  height := none
  loadAbi := fun text =>
    match text.head? with
    | some 123 => .ok ()
    | _ => .error (.runtimeError "expected an object")

/-- The handshake is made, and nothing has been read. -/
def plainShaken : List (Outcome Bytes) := [.done, .done, .done]

theorem plainShaken_reach :
    Reach (countedStep plainSettings) (fun _ _ => True) (Session.startup plainSettings, 0)
      plainShaken ((Session.startup plainSettings).at .initialReading, 0) := by
  have h₁ : Reach (countedStep plainSettings) (fun _ _ => True)
      (Session.startup plainSettings, 0) ([] ++ [(.done : Outcome Bytes)]) _ :=
    .step .start trivial rfl
  exact .step (.step h₁ trivial rfl) trivial rfl

theorem retried_plainShaken :
    Retried plainSettings 0 (((Session.startup plainSettings).at .initialReading).handle
      plainSettings (.fails [123] : Outcome Bytes)).2 :=
  ((retried_iff plainShaken_reach).1 [123] (by decide)).mpr
    ⟨fun _ => rfl, by decide⟩

/-- As many failures as the budget allows, one after the other. -/
theorem failing_reach (c : Settings) (n : Nat) (hle : n ≤ c.maxRetry.toNat) :
    ∃ (es : List (Outcome Bytes)) (s : Session), s.stage = .resolving ∧
      Reach (countedStep c) (fun _ _ => True) (Session.startup c, 0) es (s, n) := by
  induction n with
  | zero => exact ⟨[], Session.startup c, rfl, .start⟩
  | succ n ih =>
      obtain ⟨es, s, hstage, hrun⟩ := ih (Nat.le_of_succ_le hle)
      have hlive : s.stage ≠ .stopped := by
        rw [hstage]
        rintro ⟨⟩
      have hfails : s.handle c (.fails [] : Outcome Bytes) = s.resetConnection c := by
        refine handle_fails hlive ?_
        rw [hstage]
        rintro ⟨⟩
      rcases (counted_reach hrun hlive).reset with ⟨-, hlast, -⟩ | ⟨-, -, hresolving, -⟩
      · omega
      · refine ⟨es ++ [.fails []], (s.resetConnection c).1, hresolving, ?_⟩
        refine .step hrun trivial ?_
        show Except.ok ((s.handle c (.fails [] : Outcome Bytes)).1, _) = _
        rw [hfails, failuresAfter, if_neg hlive]

/-- **An empty buffer ends the program**: the connection is lost before the ABI has
    arrived, and the exception of `load_abi` leaves the handler without a retry.  And
    after 2^32 - 1 failures under the largest budget, the next one does not use it
    up. -/
theorem not_retried_plainShaken :
    (((Session.startup plainSettings).at .initialReading).handle plainSettings
        (.fails [] : Outcome Bytes)).2
      = [.threw (.runtimeError "expected an object")] ∧
    ¬ Retried plainSettings 0 (((Session.startup plainSettings).at .initialReading).handle
        plainSettings (.fails [] : Outcome Bytes)).2 ∧
    ∃ (es : List (Outcome Bytes)) (s : Session),
      Reach (countedStep { plainSettings with maxRetry := 4294967295 }) (fun _ _ => True)
        (Session.startup { plainSettings with maxRetry := 4294967295 }, 0) es
        (s, 4294967295) ∧
      ¬ Retried { plainSettings with maxRetry := 4294967295 } 4294967295
        (s.handle { plainSettings with maxRetry := 4294967295 }
          (.fails [] : Outcome Bytes)).2 := by
  have hthrows : (((Session.startup plainSettings).at .initialReading).handle plainSettings
      (.fails [] : Outcome Bytes)).2 = [.threw (.runtimeError "expected an object")] := rfl
  refine ⟨hthrows, ?_, ?_⟩
  · rw [hthrows]
    intro hretried
    exact hretried.no_throw _ List.mem_cons_self
  · obtain ⟨es, s, hstage, hrun⟩ := failing_reach
      { plainSettings with maxRetry := 4294967295 } 4294967295 (by decide)
    have hlive : s.stage ≠ .stopped := by
      rw [hstage]
      rintro ⟨⟩
    have hinitial : s.stage = .initialReading →
        Settings.initialRead { plainSettings with maxRetry := 4294967295 } []
          = .ok () := by
      rw [hstage]
      rintro ⟨⟩
    refine ⟨es, s, hrun, ?_⟩
    rw [handle_fails hlive hinitial]
    intro hretried
    have hquit := hretried.budget.mpr (by decide)
    rcases (counted_reach hrun hlive).reset with ⟨hwithin, -⟩ | ⟨-, heffects, -⟩
    · revert hwithin
      decide
    · rw [heffects] at hquit
      simp at hquit

end ShipReceiver
