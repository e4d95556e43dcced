import EosEvmNode.BlockConversion.Irreversibility

/-! # The stored LIB — `blockchain_plugin`

    The subscriber of the `evm_blocks` channel inserts every EVM block into the
    execution engine, and now and then stores `get_evm_lib()` for the next start.
    Both channels publish with the same priority, so their handlers run in the
    order in which the messages were published, on one thread.

    Each stored value is the number of a complete and irreversible EVM block,
    once the plugin has found a LIB entry; before that, it is what the member
    `evm_lib_` held when the program started. -/

namespace Blockchain

open Channels Silkworm Engine Runs BlockConversion

variable {Tx : Type}

/-- How the calls of the execution engine end: `verify_chain` may throw after
    the value has been written, `insert_block` before. -/
inductive Outcome where
  | returns
  | insertThrows
  | verifyThrows
  deriving DecidableEq, Repr

/-- The static counter, and the values written as `kLibProcessed`, newest
    first. -/
structure Store where
  blockCount : Nat
  stored : List Nat
  deriving DecidableEq, Repr

/-- Does this block store the LIB? -/
def storesLib (p : Store) (o : Outcome) (newBlock : Block Tx) : Bool :=
  o ≠ .insertThrows &&
    ((p.blockCount + 1) % 2 ^ 64 % 5000 = 0 || !newBlock.irreversible)

/-- The subscriber of the `evm_blocks` channel; `evmLib` is what `get_evm_lib`
    returns. -/
def evmBlocksHandler (evmLib : Nat) (p : Store) (o : Outcome)
    (newBlock : Block Tx) : Store :=
  if o = .insertThrows then p
  else
    let blockCount := (p.blockCount + 1) % 2 ^ 64
    if blockCount % 5000 = 0 ∨ newBlock.irreversible = false then
      { blockCount := if o = .verifyThrows then blockCount else 0
        stored := evmLib :: p.stored }
    else { p with blockCount := blockCount }

theorem evmBlocksHandler_stored (evmLib : Nat) (p : Store) (o : Outcome)
    (newBlock : Block Tx) :
    (evmBlocksHandler evmLib p o newBlock).stored
      = if storesLib p o newBlock then evmLib :: p.stored else p.stored := by
  have hstores : storesLib p o newBlock = true ↔ o ≠ .insertThrows ∧
      ((p.blockCount + 1) % 2 ^ 64 % 5000 = 0 ∨ newBlock.irreversible = false) := by
    simp [storesLib]
  unfold evmBlocksHandler
  by_cases hinsert : o = .insertThrows
  · rw [if_pos hinsert, if_neg (fun h => (hstores.mp h).1 hinsert)]
  · simp only [if_neg hinsert]
    by_cases hdue : (p.blockCount + 1) % 2 ^ 64 % 5000 = 0 ∨
        newBlock.irreversible = false
    · rw [if_pos hdue, if_pos (hstores.mpr ⟨hinsert, hdue⟩)]
    · rw [if_neg hdue, if_neg (fun h => hdue (hstores.mp h).2)]

/-! ## The event queue -/

/-- A message waiting for its handler. -/
inductive Message (Tx : Type) where
  | native (b : NativeBlock)
  | evm (e : Block Tx)
  deriving DecidableEq

/-- Both plugins and the queue between them, the next message first, with the
    native chain as far as it has been handled. -/
structure Node (Tx : Type) where
  converter : State Tx
  chain : NativeChain
  queue : List (Message Tx)
  store : Store

def Node.start (startBlock : Block Tx) (s₀ : State Tx) : Node Tx where
  converter := s₀
  chain := NativeChain.start startBlock
  queue := []
  store := { blockCount := 0, stored := [] }

inductive Event where
  /-- The receiver publishes a native block. -/
  | receive (b : NativeBlock)
  /-- The handler of the next message runs. -/
  | run (o : Outcome)
  deriving DecidableEq

/-- The EVM blocks published on the way from one state to another, in order. -/
def publishedSince (s s' : State Tx) : List (Block Tx) :=
  (s'.published.take (s'.published.length - s.published.length)).reverse

def Node.step (E : Env Tx) (n : Node Tx) : Event → Except Failure (Node Tx)
  | .receive b => .ok { n with queue := n.queue ++ [.native b] }
  | .run o =>
      match n.queue with
      | [] => .ok n
      | .native b :: rest => do
          let s ← nativeBlocksHandler E n.converter b
          .ok { n with
            converter := s
            chain := n.chain.deliver b
            queue := rest ++ (publishedSince n.converter s).map .evm }
      | .evm e :: rest =>
          .ok { n with
            queue := rest
            store := evmBlocksHandler n.converter.evmLib n.store o e }

/-- The handler only adds to what has been published. -/
theorem published_eq {E : Env Tx} {s s' : State Tx} {b : NativeBlock}
    (h : nativeBlocksHandler E s b = .ok s') :
    s'.published = (publishedSince s s').reverse ++ s.published := by
  have hlog : EvmInvariant E (fun _ => True)
      (fun _ published => s.published <:+ published) :=
    { rollback := fun _ _ _ _ _ _ _ _ hsuf => hsuf
      extend := fun _ _ _ hsuf => hsuf.trans (List.suffix_cons _ _)
      add := fun _ _ _ _ _ _ _ _ hsuf => hsuf
      prune := fun _ _ _ _ hsuf => hsuf }
  obtain ⟨newer, hnewer⟩ := hlog.step trivial h (List.suffix_refl _)
  rw [publishedSince, List.reverse_reverse, ← hnewer, List.length_append,
    Nat.add_sub_cancel, List.take_left]

/-! ## What waits in the queue -/

/-- The EVM blocks that wait for their handler, in order. -/
def waiting : List (Message Tx) → List (Block Tx)
  | [] => []
  | .native _ :: rest => waiting rest
  | .evm e :: rest => e :: waiting rest

theorem waiting_append (queue rest : List (Message Tx)) :
    waiting (queue ++ rest) = waiting queue ++ waiting rest := by
  induction queue with
  | nil => rfl
  | cons message queue ih =>
      cases message with
      | native b => exact ih
      | evm e =>
          show e :: waiting (queue ++ rest) = e :: (waiting queue ++ waiting rest)
          rw [ih]

@[simp] theorem waiting_map_evm (es : List (Block Tx)) :
    waiting (es.map .evm) = es := by
  induction es with
  | nil => rfl
  | cons e es ih =>
      show e :: waiting (es.map .evm) = e :: es
      rw [ih]

/-- What waits has been published, after all that has been handled. -/
def Node.Waits (n : Node Tx) : Prop :=
  (waiting n.queue).reverse <+: n.converter.published

theorem Node.Waits.step {E : Env Tx} {n n' : Node Tx} {e : Event} (h : n.Waits)
    (hstep : Node.step E n e = .ok n') : n'.Waits := by
  cases e with
  | receive b =>
      rw [← Except.ok.inj hstep]
      show (waiting (n.queue ++ [.native b])).reverse <+: _
      rw [waiting_append]
      show (waiting n.queue ++ []).reverse <+: _
      rw [List.append_nil]
      exact h
  | run o =>
      cases hq : n.queue with
      | nil =>
          simp only [Node.step, hq] at hstep
          rw [← Except.ok.inj hstep]
          exact h
      | cons m rest =>
          rw [Node.Waits, hq] at h
          cases m with
          | native b =>
              simp only [Node.step, hq] at hstep
              obtain ⟨s, hs, hn⟩ := bind_ok hstep
              rw [← Except.ok.inj hn]
              show (waiting (rest ++ _)).reverse <+: s.published
              rw [waiting_append, waiting_map_evm, List.reverse_append, published_eq hs]
              exact (List.prefix_append_right_inj _).mpr h
          | evm newBlock =>
              simp only [Node.step, hq] at hstep
              rw [← Except.ok.inj hstep]
              have hnew : (newBlock :: waiting rest).reverse <+: n.converter.published := h
              rw [List.reverse_cons] at hnew
              exact (List.prefix_append _ _).trans hnew

/-! ## The condition -/

/-- A native block is the next one of the chain, or one that is held. -/
def Delivers (E : Env Tx) (n : Node Tx) : Event → Prop
  | .receive _ => True
  | .run _ =>
      match n.queue with
      | .native b :: _ => Delivery E (n.converter, n.chain) b
      | _ => True

/-- **The condition**: when a value is stored, some block handled before has
    reported a LIB that is not below the restored native block. -/
def LibKnown (startBlock : Block Tx) (n : Node Tx) : Event → Prop
  | .receive _ => True
  | .run o =>
      match n.queue with
      | .evm e :: _ => storesLib n.store o e = true →
          ∃ lib ∈ n.chain.lib, (restoredNativeBlock startBlock).blockNum ≤ lib
      | _ => True

instance (E : Env Tx) (n : Node Tx) (e : Event) : Decidable (Delivers E n e) := by
  unfold Delivers
  split
  · infer_instance
  · split <;> infer_instance

instance (startBlock : Block Tx) (n : Node Tx) (e : Event) :
    Decidable (LibKnown startBlock n e) := by
  unfold LibKnown
  split
  · infer_instance
  · split <;> infer_instance

/-- What a stored LIB promises: an EVM block of that number has been published
    and a later one started; a native block of a later EVM block is
    irreversible, so no native block of this one is missing; and all of them are
    irreversible themselves. -/
structure SoundLib (E : Env Tx) (s : State Tx) (c : NativeChain) (v : Nat) :
    Prop where
  published : ∃ e, lastPublished s.published v = some e
  closed : ∀ e ∈ s.evmBlocks.head?, v < e.header.number
  complete : ∃ lib ∈ c.lib, ∃ it ∈ c.branch, it.blockNum ≤ lib ∧ v < E.evmNum it
  irreversible : ∀ lib ∈ c.lib, ∀ nb ∈ c.branch, E.evmNum nb ≤ v →
    nb.blockNum ≤ lib

/-! ## What has been published -/

/-- Every number from the start block up to below a cached EVM block has been
    published. -/
def Covers (start : Nat) (evms published : List (Block Tx)) : Prop :=
  ∀ e ∈ evms, ∀ k, start ≤ k → k < e.header.number →
    ∃ p, lastPublished published k = some p

theorem covers_start (startBlock : Block Tx) :
    Covers startBlock.header.number [startBlock] [] := by
  intro e he k hk hlt
  rw [List.mem_singleton.mp he] at hlt
  omega

theorem Covers.replace_head {start : Nat} {e e' : Block Tx}
    {es published : List (Block Tx)} (h : Covers start (e :: es) published)
    (hnum : e'.header.number = e.header.number) :
    Covers start (e' :: es) published := by
  intro x hx k hk hlt
  rcases List.mem_cons.mp hx with rfl | hmem
  · exact h e List.mem_cons_self k hk (hnum ▸ hlt)
  · exact h x (List.mem_cons_of_mem _ hmem) k hk hlt

theorem Covers.extend {E : Env Tx} {startBlock last : Block Tx}
    (hE : Started E startBlock) {start : Nat} {older published : List (Block Tx)}
    (h : Covers start (last :: older) published) :
    Covers start (generateNewEvmBlock E (setTransactionsRoot E last)
        :: setTransactionsRoot E last :: older)
      (setTransactionsRoot E last :: published) := by
  have hlog : ∀ k, (∃ p, lastPublished published k = some p) →
      ∃ p, lastPublished (setTransactionsRoot E last :: published) k = some p := by
    rintro k ⟨p, hp⟩
    by_cases hk : (setTransactionsRoot E last).header.number = k
    · exact ⟨_, lastPublished_cons_eq published hk⟩
    · exact ⟨p, (lastPublished_cons_ne published hk).trans hp⟩
  intro e he k hk hlt
  rcases List.mem_cons.mp he with rfl | he
  · rw [generateNewEvmBlock_number hE, setTransactionsRoot_number] at hlt
    by_cases hlast : k = last.header.number
    · exact ⟨_, lastPublished_cons_eq published hlast.symm⟩
    · exact hlog k (h last List.mem_cons_self k hk (by omega))
  · have hroot : Covers start (setTransactionsRoot E last :: older) published :=
      h.replace_head rfl
    exact hlog k (hroot e he k hk hlt)

theorem covers_invariant {E : Env Tx} {startBlock : Block Tx}
    (hE : Started E startBlock) (delivered : NativeBlock → Prop) (start : Nat) :
    EvmInvariant E delivered (Covers start) where
  rollback := by
    intro evms published e es txs nb hsuf _ h
    have hsub : Covers start (e :: es) published :=
      fun x hx => h x (hsuf.subset hx)
    exact hsub.replace_head rfl
  extend := fun _ _ _ h => h.extend hE
  add := by
    intro curr older published b curr' written _ hadd h
    obtain ⟨txs, -, hcurr', -⟩ := addNativeBlock_ok hE.lawful hadd
    rw [hcurr']
    exact h.replace_head rfl
  prune := fun _ _ _ _ h x hx => h x (List.mem_append_left _ hx)

/-! ## The invariant -/

/-- The EVM block before the one of an irreversible native block. -/
def Recorded (E : Env Tx) (c : NativeChain) (v : Nat) : Prop :=
  ∃ it ∈ c.branch, (∃ lib ∈ c.lib, it.blockNum ≤ lib) ∧ v + 1 = E.evmNum it

structure Kept (E : Env Tx) (startBlock : Block Tx) (evmLib₀ : Nat)
    (s : State Tx) (c : NativeChain) : Prop where
  window : Window E startBlock s c
  covers : Covers startBlock.header.number s.evmBlocks s.published
  known : (∃ lib ∈ c.lib, (restoredNativeBlock startBlock).blockNum ≤ lib) →
    Recorded E c s.evmLib
  unset : (∀ lib ∈ c.lib, lib < (restoredNativeBlock startBlock).blockNum) →
    s.evmLib = evmLib₀

section Kept

variable {E : Env Tx} {startBlock : Block Tx} {evmLib₀ : Nat} {s s' : State Tx}
  {c : NativeChain} {b : NativeBlock} {v : Nat}

theorem kept_start (hE : Started E startBlock) (evmLib₀ : Nat) :
    Kept E startBlock evmLib₀ (initialState startBlock evmLib₀)
      (NativeChain.start startBlock) where
  window := window_start hE evmLib₀
  covers := covers_start startBlock
  known := fun ⟨_, hlib, _⟩ => by cases hlib
  unset := fun _ => rfl

/-- What is irreversible stays in the branch. -/
theorem Recorded.deliver (hc : c.Wf startBlock) (h : Recorded E c v)
    {parent : NativeBlock} (hb : Follows c b parent) :
    Recorded E (c.deliver b) v := by
  obtain ⟨it, hit, hlib, hv⟩ := h
  obtain ⟨lib, hnew, -, hgrows⟩ := NativeChain.lib_deliver hb
  have hmem := (hc.mem_deliver hb hit hlib).2
  obtain ⟨l, hl, hle⟩ := hlib
  exact ⟨it, hmem, ⟨lib, hnew, Nat.le_trans hle (hgrows l hl)⟩, hv⟩

/-- **One native block**: `evm_lib` is recorded as soon as a LIB reaches the
    restored native block. -/
theorem Kept.accept (hE : Started E startBlock)
    (h : Kept E startBlock evmLib₀ s c) {parent : NativeBlock}
    (hb : Follows c b parent) (hs : nativeBlocksHandler E s b = .ok s') :
    Kept E startBlock evmLib₀ s' (c.deliver b) := by
  have hacc := h.window.accept hE hb hs
  have hchain := hacc.window.chain
  obtain ⟨lib, hlib, hble, hgrows⟩ := NativeChain.lib_deliver hb
  have hbelow : ∀ it ∈ (c.deliver b).branch,
      (restoredNativeBlock startBlock).blockNum ≤ it.blockNum := by
    intro it hit
    rcases hchain.restored_or_lt hit with rfl | hlt
    · exact Nat.le_refl _
    · exact Nat.le_of_lt hlt.1
  refine ⟨hacc.window, (covers_invariant hE (fun _ => True) _).step trivial hs
    h.covers, ?_, ?_⟩
  · rintro ⟨l, hl, hle⟩
    obtain rfl : lib = l := Option.some.inj (hlib.symm.trans hl)
    rcases hacc.evmLib with ⟨hnone, hsame⟩ | ⟨it, -, hit, hitlib, hv⟩
    · -- without an entry the LIB has been reported before
      rw [hsame]
      refine Recorded.deliver h.window.chain (h.known ?_) hb
      by_contra hbefore
      have hself : b.lib = lib := by
        rw [NativeChain.deliver_of_follows hb] at hlib
        have hmax : max (c.lib.getD 0) b.lib = lib := Option.some.inj hlib
        cases hl : c.lib with
        | none => rw [hl] at hmax; simpa using hmax
        | some l =>
            have hlow : ¬ (restoredNativeBlock startBlock).blockNum ≤ l :=
              fun hge => hbefore ⟨l, hl, hge⟩
            rw [hl, Option.getD_some] at hmax
            omega
      obtain ⟨it, hit⟩ := hacc.window.entry_exists (p := (s', c.deliver b)) hlib
        hchain.restored_mem hle
      rw [hself] at hnone
      rw [hnone] at hit
      cases hit
    · exact ⟨it, hacc.window.cached.subset hit,
        ⟨lib, hlib, Nat.le_trans hitlib hble⟩, hv⟩
  · intro hunset
    have hlt := hunset lib hlib
    rcases hacc.evmLib with ⟨-, hsame⟩ | ⟨it, -, hit, hitlib, -⟩
    · rw [hsame]
      exact h.unset fun l hl => Nat.lt_of_le_of_lt (hgrows l hl) hlt
    · have := hbelow it (hacc.window.cached.subset hit)
      omega

theorem Kept.step (hE : Started E startBlock)
    (h : Kept E startBlock evmLib₀ s c) (hb : Delivery E (s, c) b)
    (hs : nativeBlocksHandler E s b = .ok s') :
    Kept E startBlock evmLib₀ s' (c.deliver b) ∧
      ∀ v, Recorded E c v → Recorded E (c.deliver b) v := by
  rcases hb with hdup | ⟨parent, hb⟩
  · rw [hdup.handler_eq] at hs
    rw [h.window.deliver_of_redelivered hdup, ← Except.ok.inj hs]
    exact ⟨h, fun v hv => hv⟩
  · exact ⟨h.accept hE hb hs, fun v hv => hv.deliver h.window.chain hb⟩

/-- **A recorded number is sound.** -/
theorem Kept.sound (hE : Started E startBlock)
    (h : Kept E startBlock evmLib₀ s c) (hv : Recorded E c v) :
    SoundLib E s c v := by
  obtain ⟨it, hit, ⟨lib, hlib, hle⟩, hnum⟩ := hv
  have hpos := lt_evmNum hE (h.window.chain.restored_le hit)
  have hhead : ∀ e ∈ s.evmBlocks.head?, v < e.header.number := by
    intro e he
    obtain ⟨back, older, hnat⟩ :=
      List.exists_cons_of_ne_nil h.window.coherent.natives_ne
    rcases h.window.head_eq with ⟨hnone, -⟩ | heq
    · rw [hnone] at hlib
      cases hlib
    · have hback : s.nativeBlocks.head? = some back := by rw [hnat]; rfl
      have hnewest := h.window.newest_eq ▸ hback
      have hmono := evmNum_mono hE (h.window.chain.restored_le hit)
        (h.window.chain.timestamp_le hit (List.mem_of_head? hnewest)
          (h.window.chain.le_newest hnewest it hit))
      rw [heq e he back hback]
      omega
  refine ⟨?_, hhead, ⟨lib, hlib, it, hit, hle, by omega⟩, ?_⟩
  · obtain ⟨e, es, hevms⟩ := List.exists_cons_of_ne_nil h.window.coherent.evms_ne
    have hmem : e ∈ s.evmBlocks := by rw [hevms]; exact List.mem_cons_self
    exact h.covers e hmem v (by omega) (hhead e (by rw [hevms]; rfl))
  · intro l hl nb hnb hlow
    obtain rfl : lib = l := Option.some.inj (hlib.symm.trans hl)
    by_contra hgt
    -- a block above the LIB is newer than `it`, and lies no earlier
    have hmono := evmNum_mono hE (h.window.chain.restored_le hit)
      (h.window.chain.timestamp_le hit hnb (by omega))
    omega

end Kept

/-! ## Runs -/

structure Sound (E : Env Tx) (startBlock : Block Tx) (evmLib₀ : Nat)
    (n : Node Tx) : Prop where
  kept : Kept E startBlock evmLib₀ n.converter n.chain
  stored : ∀ v ∈ n.store.stored, Recorded E n.chain v

section Runs

variable {E : Env Tx} {startBlock : Block Tx} {evmLib₀ : Nat} {n n' : Node Tx}

theorem Sound.step (hE : Started E startBlock) (h : Sound E startBlock evmLib₀ n)
    {e : Event} (hd : Delivers E n e) (hc : LibKnown startBlock n e)
    (hstep : Node.step E n e = .ok n') : Sound E startBlock evmLib₀ n' := by
  cases e with
  | receive b =>
      rw [← Except.ok.inj hstep]
      exact ⟨h.kept, h.stored⟩
  | run o =>
      cases hq : n.queue with
      | nil =>
          simp only [Node.step, hq] at hstep
          rw [← Except.ok.inj hstep]
          exact h
      | cons m rest =>
          cases m with
          | native b =>
              simp only [Node.step, hq] at hstep
              simp only [Delivers, hq] at hd
              obtain ⟨s, hs, hn⟩ := bind_ok hstep
              obtain ⟨hkept, hmono⟩ := h.kept.step hE hd hs
              rw [← Except.ok.inj hn]
              exact ⟨hkept, fun v hv => hmono v (h.stored v hv)⟩
          | evm newBlock =>
              simp only [Node.step, hq] at hstep
              simp only [LibKnown, hq] at hc
              rw [← Except.ok.inj hstep]
              refine ⟨h.kept, ?_⟩
              show ∀ v ∈ (evmBlocksHandler _ _ _ _).stored, Recorded E n.chain v
              rw [evmBlocksHandler_stored]
              -- what is stored is the current EVM LIB, which is a reported one here
              by_cases hstores : storesLib n.store o newBlock = true
              · rw [if_pos hstores]
                intro v hv
                rcases List.mem_cons.mp hv with rfl | hold
                · exact h.kept.known (hc hstores)
                · exact h.stored v hold
              · rw [if_neg hstores]
                exact h.stored

theorem sound_reach (hE : Started E startBlock) {events : List Event}
    (hrun : Reach (Node.step E)
      (fun n e => Delivers E n e ∧ LibKnown startBlock n e)
      (Node.start startBlock (initialState startBlock evmLib₀)) events n) :
    Sound E startBlock evmLib₀ n :=
  hrun.invariant (P := Sound E startBlock evmLib₀)
    ⟨kept_start hE evmLib₀, fun _ hv => absurd hv List.not_mem_nil⟩
    (fun _ _ _ hn he hstep => hn.step hE he.1 he.2 hstep)

/-- Where the condition fails, the stored value is what `evm_lib_` held at
    first. -/
theorem Sound.unset (h : Sound E startBlock evmLib₀ n) {o : Outcome}
    (hc : ¬ LibKnown startBlock n (.run o)) :
    ∃ n', Node.step E n (.run o) = .ok n' ∧
      n'.store.stored = evmLib₀ :: n.store.stored := by
  cases hq : n.queue with
  | nil => simp [LibKnown, hq] at hc
  | cons m rest =>
      cases m with
      | native b => simp [LibKnown, hq] at hc
      | evm newBlock =>
          simp only [LibKnown, hq, Classical.not_imp] at hc
          obtain ⟨hstores, hnone⟩ := hc
          have hunset := h.kept.unset fun lib hlib =>
            Nat.lt_of_not_le fun hle => hnone ⟨lib, hlib, hle⟩
          refine ⟨{ n with
            queue := rest
            store := evmBlocksHandler n.converter.evmLib n.store o newBlock },
            by simp only [Node.step, hq], ?_⟩
          rw [evmBlocksHandler_stored, if_pos hstores, hunset]

end Runs

/-- **The stored LIB is sound**, in every run in which a LIB is known whenever
    one is stored; where none is, the content the member `evm_lib_` happened to
    have is stored instead. -/
theorem stored_lib_sound {X : Externals Tx} {db : ChainData Tx}
    {height : Option Nat} {startBlock : Block Tx} {E : Env Tx} {s₀ : State Tx}
    (hload : Loaded X db height startBlock E s₀) {events : List Event}
    {n : Node Tx}
    (hrun : Reach (Node.step E)
      (fun n e => Delivers E n e ∧ LibKnown startBlock n e)
      (Node.start startBlock s₀) events n) :
    (∀ v ∈ n.store.stored, SoundLib E n.converter n.chain v) ∧
    ∀ o, ¬ LibKnown startBlock n (.run o) →
      ∃ n', Node.step E n (.run o) = .ok n' ∧
        n'.store.stored = s₀.evmLib :: n.store.stored := by
  have hE := hload.started
  obtain ⟨evmLib₀, rfl⟩ := hload.initial
  have h := sound_reach hE hrun
  exact ⟨fun v hv => h.kept.sound hE (h.stored v hv), fun o hc => h.unset hc⟩

/-- Native block 2 reports LIB 1; its handler publishes EVM blocks 0 and 1, and
    the first of them stores the LIB. -/
def plainEvents : List Event :=
  [.receive (plainNative 2 0 0 22 1 []), .run .returns, .run .returns]

theorem stored_lib_sound_plain :
    ∃ n, Reach (Node.step plainEnv)
        (fun n e => Delivers plainEnv n e ∧ LibKnown plainGenesis n e)
        (Node.start plainGenesis (initialState plainGenesis 77)) plainEvents n ∧
      n.store.stored = [0] ∧ ∀ v ∈ n.store.stored,
        SoundLib plainEnv n.converter n.chain v := by
  have hcheck : checkRun (Node.step plainEnv)
      (fun n e => Delivers plainEnv n e ∧ LibKnown plainGenesis n e)
      (Node.start plainGenesis (initialState plainGenesis 77)) plainEvents
        = true := by decide +kernel
  obtain ⟨n, hn⟩ := exists_reach hcheck
  have hstored : n.store.stored = [0] :=
    hn.eval (f := fun n => n.store.stored) (by decide +kernel)
  exact ⟨n, hn, hstored, (stored_lib_sound (plainEnv_loaded 77) hn).1⟩

/-- The restored native block is 5, and native block 6 reports LIB 2. -/
def aheadEvents : List Event :=
  [.receive (plainNative 6 0 0 24 2 []), .run .returns, .run .returns]

/-- What the member held at first is stored: there is no EVM block 77. -/
theorem not_sound_aheadEvents :
    Loaded plainExternals (storedData [aheadGenesis]) none aheadGenesis plainEnv
      (initialState aheadGenesis 77) ∧
    ∃ n, Reach (Node.step plainEnv) (Delivers plainEnv)
        (Node.start aheadGenesis (initialState aheadGenesis 77)) aheadEvents n ∧
      77 ∈ n.store.stored ∧ ¬ SoundLib plainEnv n.converter n.chain 77 := by
  have hcheck : checkRun (Node.step plainEnv) (Delivers plainEnv)
      (Node.start aheadGenesis (initialState aheadGenesis 77)) aheadEvents
        = true := by decide +kernel
  obtain ⟨n, hn⟩ := exists_reach hcheck
  have hstored : n.store.stored = [77] :=
    hn.eval (f := fun n => n.store.stored) (by decide +kernel)
  have hhead : n.converter.evmBlocks.head?.map (fun e => e.header.number) = some 3 :=
    hn.eval (f := fun n =>
      n.converter.evmBlocks.head?.map (fun e => e.header.number)) (by decide +kernel)
  obtain ⟨e, he, hnum⟩ := Option.map_eq_some_iff.mp hhead
  refine ⟨aheadGenesis_loaded 77, n, hn, ?_, ?_⟩
  · rw [hstored]
    exact List.mem_singleton_self _
  · intro hsound
    have := hsound.closed e he
    omega

end Blockchain
