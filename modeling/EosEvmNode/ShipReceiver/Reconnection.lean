import EosEvmNode.ShipReceiver.Sync
import EosEvmNode.BlockConversion.Forward
import EosEvmNode.BlockConversion.LibWindow

/-! # Reconnections — the receiver and the converter together

    The receiver may lose its connection at any point; `sync` then decides from
    the last LIB and the last block number where the new stream starts, while the
    converter has pruned its cache by the LIB of the blocks it accepted.  The
    channel between the two keeps the order of the blocks and `sync` reads
    nothing of the converter, so a block is taken to be handled when it is read.

    The stream that is asked for resumes inside the cache, unless it goes back
    below the restored native block or the last LIB says too little
    (`Covered`). -/

namespace ShipReceiver

open Channels Silkworm Engine Runs BlockConversion

variable {Tx : Type}

/-- What the receiver is waiting for. -/
inductive Connection where
  | down
  /-- The first block of a stream, with the number that was requested. -/
  | requested (startFrom : Nat)
  /-- More blocks of the stream. -/
  | reading
  deriving DecidableEq, Repr

/-- The receiver, the converter, and the native chain read so far with the last
    block read, at first the restored one. -/
structure System (Tx : Type) where
  receiver : Receiver
  connection : Connection
  converter : State Tx
  chain : NativeChain
  last : NativeBlock

/-- `load_head` has returned `s₀`. -/
def System.start (startBlock : Block Tx) (s₀ : State Tx) : System Tx where
  receiver := Receiver.init
  connection := .down
  converter := s₀
  chain := NativeChain.start startBlock
  last := restoredNativeBlock startBlock

inductive Event (Tx : Type) where
  /-- A connection, new or after a loss, with the database as it is then. -/
  | connect (db : ChainData Tx) (traceBeginBlock : Nat)
  | read (b : NativeBlock)

def System.step (E : Env Tx) (height : Option Nat) (sys : System Tx) :
    Event Tx → Except Failure (System Tx)
  | .connect db traceBeginBlock => do
      let startFrom ← sync sys.receiver db height traceBeginBlock
      .ok { sys with connection := .requested startFrom }
  | .read b => do
      let s ← nativeBlocksHandler E sys.converter b
      .ok
        { receiver := Receiver.read b
          connection := .reading
          converter := s
          chain := sys.chain.deliver b
          last := b }

/-! ## What the endpoint sends -/

/-- `b` is the child of `parent` on the native chain.  The restored native block
    is dated at the first slot its child may have. -/
structure ChildOf (b parent : NativeBlock) : Prop where
  link : parent.id = b.prev
  number : b.blockNum = parent.blockNum + 1
  later : parent.timestamp ≤ b.timestamp

instance (b parent : NativeBlock) : Decidable (ChildOf b parent) :=
  decidable_of_iff (parent.id = b.prev ∧ b.blockNum = parent.blockNum + 1 ∧
      parent.timestamp ≤ b.timestamp)
    ⟨fun ⟨h₁, h₂, h₃⟩ => ⟨h₁, h₂, h₃⟩, fun ⟨h₁, h₂, h₃⟩ => ⟨h₁, h₂, h₃⟩⟩

/-- A fork at `x` is possible: `x` is the end of the branch, or a block of it that
    no reported LIB has passed. -/
def Reaches (c : NativeChain) (x : NativeBlock) : Prop :=
  x ∈ c.branch ∧ (c.branch.head? = some x ∨ ∀ lib ∈ c.lib, lib ≤ x.blockNum)

/-- The place of the next block in the stream.  The first block is the requested
    one; up to the last LIB, and to the restored block at first, the stream
    agrees with what was read before.  Any other block goes on top of the last
    one sent, or of an earlier one that no reported LIB has passed. -/
def InPlace (sys : System Tx) (b : NativeBlock) : Prop :=
  match sys.connection with
  | .down => False
  | .requested startFrom => b.blockNum = startFrom ∧
      ∀ nb ∈ sys.chain.branch, nb.blockNum + 1 = startFrom →
        (nb.blockNum ≤ sys.receiver.lastLib ∨ sys.receiver = Receiver.init) →
        ChildOf b nb
  | .reading => ∃ parent ∈ sys.chain.branch, ChildOf b parent ∧
      (parent.id = sys.last.id ∨ ∀ lib ∈ sys.chain.lib, lib ≤ parent.blockNum)

instance (sys : System Tx) (b : NativeBlock) : Decidable (InPlace sys b) := by
  unfold InPlace
  cases sys.connection <;> infer_instance

/-- What the endpoint promises about the blocks it sends. -/
structure Served (E : Env Tx) (sys : System Tx) (b : NativeBlock) : Prop where
  in_place : InPlace sys b
  /-- An id belongs to one block number. -/
  id_number : ∀ nb ∈ sys.chain.branch, nb.id = b.id → nb.blockNum = b.blockNum
  prev_number : ∀ nb ∈ sys.chain.branch, nb.id = b.prev →
    nb.blockNum + 1 = b.blockNum
  after_genesis : E.bm.genesisTimestamp < b.timestamp
  in_range : b.timestamp < 2 ^ 32 * 1000000
  number_range : b.blockNum + 1 < 2 ^ 32

instance (E : Env Tx) (sys : System Tx) (b : NativeBlock) :
    Decidable (Served E sys b) :=
  decidable_of_iff (InPlace sys b ∧
      (∀ nb ∈ sys.chain.branch, nb.id = b.id → nb.blockNum = b.blockNum) ∧
      (∀ nb ∈ sys.chain.branch, nb.id = b.prev → nb.blockNum + 1 = b.blockNum) ∧
      E.bm.genesisTimestamp < b.timestamp ∧ b.timestamp < 2 ^ 32 * 1000000 ∧
      b.blockNum + 1 < 2 ^ 32)
    ⟨fun ⟨h₁, h₂, h₃, h₄, h₅, h₆⟩ => ⟨h₁, h₂, h₃, h₄, h₅, h₆⟩,
      fun ⟨h₁, h₂, h₃, h₄, h₅, h₆⟩ => ⟨h₁, h₂, h₃, h₄, h₅, h₆⟩⟩

/-- Before a block has been read the database still holds the start block of
    `load_head`. -/
def SameStart (startBlock : Block Tx) (height : Option Nat) (sys : System Tx)
    (db : ChainData Tx) : Prop :=
  sys.receiver = Receiver.init →
    getCanonicalBlockAtHeight db height = some startBlock

/-- The environment. -/
def Serves (E : Env Tx) (startBlock : Block Tx) (height : Option Nat)
    (sys : System Tx) : Event Tx → Prop
  | .connect db _ => SameStart startBlock height sys db
  | .read b => Served E sys b

/-- **The condition**.  A reconnection finds a last LIB, the largest one reported
    so far.  No block below the restored one is read, nor another block of its
    number. -/
def Covered (startBlock : Block Tx) (sys : System Tx) : Event Tx → Prop
  | .connect _ _ =>
      (sys.receiver = Receiver.init ∨ 0 < sys.receiver.lastLib) ∧
        ∀ lib ∈ sys.chain.lib, lib ≤ sys.receiver.lastLib
  | .read b => (restoredNativeBlock startBlock).blockNum < b.blockNum ∨
      b.id = (restoredNativeBlock startBlock).id

instance [DecidableEq Tx] (E : Env Tx) (startBlock : Block Tx)
    (height : Option Nat) (sys : System Tx) (e : Event Tx) :
    Decidable (Serves E startBlock height sys e) :=
  match e with
  | .connect db _ => inferInstanceAs (Decidable (sys.receiver = Receiver.init →
      getCanonicalBlockAtHeight db height = some startBlock))
  | .read b => inferInstanceAs (Decidable (Served E sys b))

instance (startBlock : Block Tx) (sys : System Tx) (e : Event Tx) :
    Decidable (Covered startBlock sys e) :=
  match e with
  | .connect _ _ => inferInstanceAs (Decidable (_ ∧ _))
  | .read _ => inferInstanceAs (Decidable (_ ∨ _))

/-- The converter can place a block: it holds the block already and then changes
    nothing, it ends at its parent, or it holds its parent. -/
structure Placed (E : Env Tx) (s : State Tx) (b : NativeBlock) : Prop where
  place : (isCached s b.id = true ∧ nativeBlocksHandler E s b = .ok s) ∨
    OnTop s b ∨ ∃ nb ∈ s.nativeBlocks, nb.id = b.prev
  never_lost : nativeBlocksHandler E s b
    ≠ .error (.runtimeError "Unable to find fork block")

/-! ## The invariant -/

structure Synced (E : Env Tx) (startBlock : Block Tx) (sys : System Tx) : Prop where
  window : Window E startBlock sys.converter sys.chain
  /-- Nothing has been read, or the last block read is the one recorded. -/
  last : ∃ x, Reaches sys.chain x ∧ x.id = sys.last.id ∧
    (sys.receiver = Receiver.init ∨
      (x.blockNum = sys.receiver.lastBlockNum ∧ x.blockNum + 1 < 2 ^ 32))
  /-- The stream goes on above a block that is held, or starts no higher than
      the restored one. -/
  requested : ∀ n, sys.connection = .requested n →
    (∃ parent, Reaches sys.chain parent ∧ parent.blockNum + 1 = n ∧
      (parent.blockNum ≤ sys.receiver.lastLib ∨ sys.receiver = Receiver.init)) ∨
    (n ≤ (restoredNativeBlock startBlock).blockNum ∧
      ∀ lib ∈ sys.chain.lib, lib ≤ (restoredNativeBlock startBlock).blockNum)

section Synced

variable {E : Env Tx} {startBlock : Block Tx} {height : Option Nat}
  {sys sys' : System Tx} {b parent : NativeBlock}

theorem Reaches.held {c : NativeChain} {s : State Tx} {x : NativeBlock}
    (h : Reaches c x) (hE : Started E startBlock) (hw : Window E startBlock s c) :
    x ∈ s.nativeBlocks :=
  (hw.held hE h.1 h.2).1

/-- The restored block is read again. -/
theorem Synced.restored_redelivered (hE : Started E startBlock)
    (h : Synced E startBlock sys) (hb : Served E sys b)
    (hid : b.id = (restoredNativeBlock startBlock).id)
    (hlib : ∀ lib ∈ sys.chain.lib,
      lib ≤ (restoredNativeBlock startBlock).blockNum) :
    Redelivered E sys.converter b ∧ ∃ x, Reaches sys.chain x ∧ x.id = b.id ∧
      x.blockNum = b.blockNum := by
  have hmem := h.window.chain.restored_mem
  have hnum := hb.id_number _ hmem hid.symm
  have hreach : Reaches sys.chain (restoredNativeBlock startBlock) :=
    ⟨hmem, Or.inr hlib⟩
  refine ⟨⟨?_, ?_, hb.after_genesis⟩, _, hreach, hid.symm, hnum⟩
  · refine List.any_eq_true.mpr ⟨_, hreach.held hE h.window, ?_⟩
    simp [hid]
  · intro back hback hprev
    have hin := h.window.cached.subset (List.mem_of_head? hback)
    have hnext := hb.prev_number back hin hprev
    rcases h.window.chain.restored_or_lt hin with rfl | hlt <;> omega

/-- A child of a block within reach is held already, or is the next one of the
    chain. -/
theorem Synced.child_delivery (hE : Started E startBlock)
    (h : Synced E startBlock sys) (hb : Served E sys b)
    (hreach : Reaches sys.chain parent) (hchild : ChildOf b parent) :
    (Redelivered E sys.converter b ∧ ∃ x, Reaches sys.chain x ∧ x.id = b.id ∧
      x.blockNum = b.blockNum) ∨ Follows sys.chain b parent := by
  have hw := h.window
  by_cases hknown : ∃ nb ∈ sys.chain.branch, nb.id = b.id
  · obtain ⟨nb, hnb, hid⟩ := hknown
    have hsame := hb.id_number nb hnb hid
    have hnumber := hchild.number
    -- a block with the number of `b` is above the parent
    have hnothead : sys.chain.branch.head? ≠ some parent := by
      intro hhead
      obtain ⟨rest, hrest⟩ := List.head?_eq_some_iff.mp hhead
      have hpair := hw.chain.pairwise
      rw [hrest] at hpair hnb
      rcases List.mem_cons.mp hnb with rfl | hmem
      · omega
      · have := (List.pairwise_cons.mp hpair).1 nb hmem
        omega
    have hlib : ∀ lib ∈ sys.chain.lib, lib ≤ parent.blockNum := by
      rcases hreach.2 with hhead | hle
      · exact absurd hhead hnothead
      · exact hle
    have hheld : nb ∈ sys.converter.nativeBlocks :=
      hw.chain.mem_of_prefix hw.cached (hreach.held hE hw) hnb (by omega)
    refine Or.inl ⟨⟨?_, ?_, hb.after_genesis⟩, nb, ⟨hnb, Or.inr ?_⟩, hid, hsame⟩
    · exact List.any_eq_true.mpr ⟨nb, hheld, by simp [hid]⟩
    · intro back hback hprev
      have hmem := hw.cached.subset (List.mem_of_head? hback)
      obtain rfl := hw.chain.eq_of_id hmem hreach.1 (hprev.trans hchild.link.symm)
      rw [hw.newest_eq] at hback
      exact hnothead hback
    · intro lib hmem
      have := hlib lib hmem
      omega
  · refine Or.inr ⟨hreach.1, hchild.link, ?_, hchild.number, hchild.later,
      by have := hb.after_genesis; omega, hb.in_range, hreach.2⟩
    intro nb hnb hid
    exact hknown ⟨nb, hnb, hid⟩

/-- **What is read**: a block that is held already, or the next one of the chain
    on top of a block within reach. -/
theorem Synced.delivery (hE : Started E startBlock) (h : Synced E startBlock sys)
    (hb : Served E sys b) (hc : Covered startBlock sys (.read b)) :
    (Redelivered E sys.converter b ∧ ∃ x, Reaches sys.chain x ∧ x.id = b.id ∧
      x.blockNum = b.blockNum) ∨
    ∃ parent, Reaches sys.chain parent ∧ Follows sys.chain b parent := by
  have hchildren : (∃ parent, Reaches sys.chain parent ∧ ChildOf b parent) →
      (Redelivered E sys.converter b ∧ ∃ x, Reaches sys.chain x ∧ x.id = b.id ∧
        x.blockNum = b.blockNum) ∨
      ∃ parent, Reaches sys.chain parent ∧ Follows sys.chain b parent := by
    rintro ⟨parent, hreach, hchild⟩
    rcases h.child_delivery hE hb hreach hchild with hdup | hfollows
    · exact Or.inl hdup
    · exact Or.inr ⟨parent, hreach, hfollows⟩
  have hplace := hb.in_place
  rw [InPlace] at hplace
  cases hconn : sys.connection with
  | down => rw [hconn] at hplace; exact hplace.elim
  | requested n =>
      -- the first block of a connection is the requested one
      rw [hconn] at hplace
      obtain ⟨hnum, hagrees⟩ := hplace
      rcases h.requested n hconn with ⟨parent, hreach, hn, hle⟩ | ⟨hn, hlib⟩
      · exact hchildren ⟨parent, hreach, hagrees parent hreach.1 hn hle⟩
      · rcases hc with hlt | hid
        · omega
        · exact Or.inl (h.restored_redelivered hE hb hid hlib)
  | reading =>
      -- the block follows the last one, or the fork point is not below the LIB
      rw [hconn] at hplace
      obtain ⟨parent, hmem, hchild, hlast | hlib⟩ := hplace
      · obtain ⟨x, hreach, hid, -⟩ := h.last
        obtain rfl := h.window.chain.eq_of_id hmem hreach.1 (hlast.trans hid.symm)
        exact hchildren ⟨parent, hreach, hchild⟩
      · exact hchildren ⟨parent, ⟨hmem, Or.inr hlib⟩, hchild⟩

/-- **Every block read can be placed.** -/
theorem Synced.placed (hE : Started E startBlock) (h : Synced E startBlock sys)
    (hb : Served E sys b) (hc : Covered startBlock sys (.read b)) :
    Placed E sys.converter b := by
  rcases h.delivery hE hb hc with ⟨hdup, -⟩ | ⟨parent, hreach, hfollows⟩
  · refine ⟨Or.inl ⟨hdup.cached, hdup.handler_eq⟩, ?_⟩
    rw [hdup.handler_eq]
    rintro ⟨⟩
  · refine ⟨Or.inr (Or.inr
      ⟨parent, hreach.held hE h.window, hfollows.link⟩), ?_⟩
    have hdated := hfollows.dated hE h.window.chain h.window.cached
    rw [nativeBlocksHandler, if_neg hdated.not_before]
    refine bind_ne_error
      (linkNativeBlock_ne_lost (hreach.held hE h.window) hfollows.link) ?_
    intro r _
    cases r with
    | none => rintro ⟨⟩
    | some t =>
        exact appendNativeBlock_ne E t b (by simp [additionFailures])
          (fun hlost => by cases hlost) (fun hlost => by cases hlost)

/-- A block at or below the restored one, and not the same, has no place. -/
theorem Synced.covered_of_placed (h : Synced E startBlock sys)
    (hb : Served E sys b) (hp : Placed E sys.converter b) :
    Covered startBlock sys (.read b) := by
  have hcached := h.window.cached
  -- the parent is numbered from the restored block on
  have hchild : ∀ nb ∈ sys.converter.nativeBlocks, nb.id = b.prev →
      Covered startBlock sys (.read b) := by
    intro nb hnb hid
    have hnext := hb.prev_number nb (hcached.subset hnb) hid
    refine Or.inl ?_
    rcases h.window.chain.restored_or_lt (hcached.subset hnb) with rfl | hlt <;>
      omega
  rcases hp.place with ⟨hdup, -⟩ | htop | ⟨nb, hnb, hid⟩
  · obtain ⟨nb, hnb, hid⟩ := List.any_eq_true.mp hdup
    have hid : nb.id = b.id := by simpa using hid
    have hsame := hb.id_number nb (hcached.subset hnb) hid
    rcases h.window.chain.restored_or_lt (hcached.subset hnb) with rfl | hlt
    · exact Or.inr hid.symm
    · exact Or.inl (by omega)
  · obtain ⟨back, older, hnat⟩ :=
      List.exists_cons_of_ne_nil h.window.coherent.natives_ne
    have hmem : back ∈ sys.converter.nativeBlocks := by
      rw [hnat]
      exact List.mem_cons_self
    exact hchild back hmem (htop back (by rw [hnat]; rfl))
  · exact hchild nb hnb hid

/-! ## Steps -/

theorem synced_start (hE : Started E startBlock) (evmLib₀ : Nat) :
    Synced E startBlock
      (System.start startBlock (initialState startBlock evmLib₀)) where
  window := window_start hE evmLib₀
  last := ⟨restoredNativeBlock startBlock,
    ⟨List.mem_singleton_self _, Or.inl rfl⟩, rfl, Or.inl rfl⟩
  requested := fun _ h => by cases h

/-- The stream that `sync` asks for. -/
theorem Synced.connect (h : Synced E startBlock sys) {db : ChainData Tx}
    {traceBeginBlock n : Nat} (hdb : SameStart startBlock height sys db)
    (hc : Covered startBlock sys (.connect db traceBeginBlock))
    (hsync : sync sys.receiver db height traceBeginBlock = .ok n) :
    Synced E startBlock { sys with connection := .requested n } := by
  refine ⟨h.window, h.last, ?_⟩
  rintro m hm
  obtain rfl : n = m := Connection.requested.inj hm
  obtain ⟨hread, hlib⟩ := hc
  have hrestored := h.window.chain.restored_mem
  rcases sync_ok hsync with ⟨hpos, hm⟩ | ⟨hzero, block, hblock, hm⟩
  · -- a reconnection: above the last LIB or the last block read
    obtain ⟨x, hreach, -, hinit | ⟨hnum, hrange⟩⟩ := h.last
    · rw [hinit] at hpos
      exact absurd hpos (Nat.lt_irrefl 0)
    · by_cases hcatch : sys.receiver.lastLib > sys.receiver.lastBlockNum
      · rw [if_pos hcatch, Nat.mod_eq_of_lt (by omega)] at hm
        have hle : x.blockNum ≤ sys.receiver.lastLib := by omega
        exact Or.inl ⟨x, hreach, by omega, Or.inl hle⟩
      · rw [if_neg hcatch, Nat.mod_eq_of_lt (by omega)] at hm
        by_cases hbelow : sys.receiver.lastLib
            < (restoredNativeBlock startBlock).blockNum
        · refine Or.inr ⟨by omega, ?_⟩
          intro lib hmem
          have := hlib lib hmem
          omega
        · obtain ⟨y, hy, hynum⟩ :=
            h.window.chain.exists_number hreach.1 (k := sys.receiver.lastLib)
              (by omega) (by omega)
          exact Or.inl ⟨y, ⟨hy, Or.inr (hynum ▸ hlib)⟩, by omega,
            Or.inl (Nat.le_of_eq hynum)⟩
  · -- the first connection: above the restored block
    have hinit : sys.receiver = Receiver.init := hread.resolve_right (by omega)
    rw [hdb hinit] at hblock
    obtain rfl := Option.some.inj hblock
    have hm : n = ((restoredNativeBlock startBlock).blockNum + 1) % 2 ^ 32 := hm
    have hbelow : ∀ lib ∈ sys.chain.lib,
        lib ≤ (restoredNativeBlock startBlock).blockNum := by
      intro lib hmem
      have := hlib lib hmem
      omega
    by_cases hrange : (restoredNativeBlock startBlock).blockNum + 1 < 2 ^ 32
    · rw [Nat.mod_eq_of_lt hrange] at hm
      exact Or.inl ⟨_, ⟨hrestored, Or.inr hbelow⟩, hm.symm, Or.inr hinit⟩
    · exact Or.inr ⟨by omega, hbelow⟩

/-- A block read and handled. -/
theorem Synced.read (hE : Started E startBlock) (h : Synced E startBlock sys)
    (hb : Served E sys b) (hc : Covered startBlock sys (.read b)) {s : State Tx}
    (hs : nativeBlocksHandler E sys.converter b = .ok s) :
    Synced E startBlock
      { receiver := Receiver.read b
        connection := .reading
        converter := s
        chain := sys.chain.deliver b
        last := b } := by
  rcases h.delivery hE hb hc with
    ⟨hdup, x, hreach, hid, hnum⟩ | ⟨parent, -, hfollows⟩
  · -- the last block is held again
    rw [hdup.handler_eq] at hs
    obtain rfl := Except.ok.inj hs
    rw [h.window.deliver_of_redelivered hdup]
    exact
      { window := h.window
        last := ⟨x, hreach, hid, Or.inr ⟨hnum, hnum ▸ hb.number_range⟩⟩
        requested := fun _ hconn => by cases hconn }
  · have hhead : (sys.chain.deliver b).branch.head? = some b := by
      rw [NativeChain.deliver_of_follows hfollows]
      rfl
    exact
      { window := (h.window.accept hE hfollows hs).window
        last := ⟨b, ⟨List.mem_of_head? hhead, Or.inl hhead⟩, rfl,
          Or.inr ⟨rfl, hb.number_range⟩⟩
        requested := fun _ hconn => by cases hconn }

theorem Synced.step (hE : Started E startBlock) (h : Synced E startBlock sys)
    {e : Event Tx} (he : Serves E startBlock height sys e)
    (hc : Covered startBlock sys e)
    (hstep : System.step E height sys e = .ok sys') : Synced E startBlock sys' := by
  cases e with
  | connect db traceBeginBlock =>
      obtain ⟨n, hsync, hn⟩ := bind_ok hstep
      rw [← Except.ok.inj hn]
      exact h.connect he hc hsync
  | read b =>
      obtain ⟨s, hs, hread⟩ := bind_ok hstep
      rw [← Except.ok.inj hread]
      exact h.read hE he hc hs

theorem synced_reach (hE : Started E startBlock) {evmLib₀ : Nat}
    {events : List (Event Tx)}
    (hrun : Reach (System.step E height)
      (fun sys e => Serves E startBlock height sys e ∧ Covered startBlock sys e)
      (System.start startBlock (initialState startBlock evmLib₀)) events sys) :
    Synced E startBlock sys :=
  hrun.invariant (P := Synced E startBlock) (synced_start hE evmLib₀)
    (fun _ _ _ hsys he hstep => hsys.step hE he.1 he.2 hstep)

end Synced

/-- **No reconnection strands the converter**, as long as the condition is met:
    after every run whose events meet it, the converter can place the next block
    read exactly if that block meets it too. -/
theorem reconnection_placed {X : Externals Tx} {db : ChainData Tx}
    {height : Option Nat} {startBlock : Block Tx} {E : Env Tx} {s₀ : State Tx}
    (hload : Loaded X db height startBlock E s₀) {events : List (Event Tx)}
    {sys : System Tx}
    (hrun : Reach (System.step E height)
      (fun sys e => Serves E startBlock height sys e ∧ Covered startBlock sys e)
      (System.start startBlock s₀) events sys)
    {b : NativeBlock} (hb : Served E sys b) :
    Placed E sys.converter b ↔ Covered startBlock sys (.read b) := by
  obtain ⟨evmLib₀, rfl⟩ := hload.initial
  have h := synced_reach hload.started hrun
  exact ⟨h.covered_of_placed hb, h.placed hload.started hb⟩

/-- Native blocks 2, in the slot the restored one is dated at, and 3; a new
    connection that sends block 2 again, and then another block 3. -/
def plainReconnection : List (Event Bytes) :=
  [.connect (storedData [plainGenesis]) 0,
    .read (plainNative 2 0 0 20 1 []),
    .read (plainNative 3 0 0 23 1 []),
    .connect (storedData [plainGenesis]) 0,
    .read (plainNative 2 0 0 20 1 [])]

theorem reconnection_placed_plain :
    ∃ sys, Reach (System.step plainEnv none)
        (fun sys e => Serves plainEnv plainGenesis none sys e ∧
          Covered plainGenesis sys e)
        (System.start plainGenesis (initialState plainGenesis 0))
        plainReconnection sys ∧
      Placed plainEnv sys.converter (plainNative 3 1 0 24 2 []) := by
  have hcheck : checkRun (System.step plainEnv none)
      (fun sys e => Serves plainEnv plainGenesis none sys e ∧
        Covered plainGenesis sys e)
      (System.start plainGenesis (initialState plainGenesis 0))
      plainReconnection = true := by decide +kernel
  have hserved : ∀ sys, feed (System.step plainEnv none)
      (System.start plainGenesis (initialState plainGenesis 0)) plainReconnection
        = .ok sys → Served plainEnv sys (plainNative 3 1 0 24 2 []) := by
    intro sys hsys
    have hread : (feed (System.step plainEnv none)
        (System.start plainGenesis (initialState plainGenesis 0))
        plainReconnection).map
          (fun sys => decide (Served plainEnv sys (plainNative 3 1 0 24 2 [])))
        = .ok true := by decide +kernel
    rw [hsys] at hread
    exact of_decide_eq_true (Except.ok.inj hread)
  obtain ⟨sys, hsys⟩ := exists_reach hcheck
  exact ⟨sys, hsys, (reconnection_placed (plainEnv_loaded 0) hsys
    (hserved sys hsys.feed_eq)).mpr (Or.inl (by decide))⟩

/-- Block 6 with LIB 2 on top of the restored block 5, and a new connection. -/
def aheadReconnection : List (Event Bytes) :=
  [.connect (storedData [aheadGenesis]) 0,
    .read (plainNative 6 0 0 24 2 []),
    .connect (storedData [aheadGenesis]) 0]

/-- The new stream starts at block 3, whose parent was never held. -/
theorem not_placed_aheadReconnection :
    Loaded plainExternals (storedData [aheadGenesis]) none aheadGenesis plainEnv
      (initialState aheadGenesis 0) ∧
    ∃ sys, Reach (System.step plainEnv none) (Serves plainEnv aheadGenesis none)
        (System.start aheadGenesis (initialState aheadGenesis 0))
        aheadReconnection sys ∧
      Served plainEnv sys (plainNative 3 0 0 22 2 []) ∧
      ¬ Placed plainEnv sys.converter (plainNative 3 0 0 22 2 []) ∧
      nativeBlocksHandler plainEnv sys.converter (plainNative 3 0 0 22 2 [])
        = .error (.runtimeError "Unable to find fork block") := by
  have hcheck : checkRun (System.step plainEnv none)
      (Serves plainEnv aheadGenesis none)
      (System.start aheadGenesis (initialState aheadGenesis 0))
      aheadReconnection = true := by decide +kernel
  obtain ⟨sys, hsys⟩ := exists_reach hcheck
  have hread : decide (Served plainEnv sys (plainNative 3 0 0 22 2 []) ∧
      nativeBlocksHandler plainEnv sys.converter (plainNative 3 0 0 22 2 [])
        = .error (.runtimeError "Unable to find fork block")) = true :=
    hsys.eval (f := fun sys =>
      decide (Served plainEnv sys (plainNative 3 0 0 22 2 []) ∧
        nativeBlocksHandler plainEnv sys.converter (plainNative 3 0 0 22 2 [])
          = .error (.runtimeError "Unable to find fork block"))) (by decide +kernel)
  obtain ⟨hserved, hlost⟩ := of_decide_eq_true hread
  exact ⟨aheadGenesis_loaded 0, sys, hsys, hserved,
    fun hp => hp.never_lost hlost, hlost⟩

end ShipReceiver
