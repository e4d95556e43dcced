import EosEvmNode.BlockConversion.Rollback

/-! # The native chain as it was delivered

    The plugin keeps a window of the native chain.  To say what it has dropped,
    a run is tracked together with the whole current branch, from the restored
    native block to the last accepted one, and the largest LIB reported so far.
    `Follows` is what the native chain promises about the next block: numbers
    grow by one and timestamps do not decrease along the links, and no block
    replaces an irreversible one.  The restored native block is dated at the first
    slot of the second after the start block, which is where its child may lie. -/

namespace BlockConversion

open Channels Silkworm Engine Runs

variable {Tx : Type}

/-- The current branch, newest first, and the largest LIB reported on the way. -/
structure NativeChain where
  branch : List NativeBlock
  lib : Option Nat
  deriving DecidableEq, Repr

def NativeChain.start (startBlock : Block Tx) : NativeChain where
  branch := [restoredNativeBlock startBlock]
  lib := none

/-- The chain after a block is delivered: nothing changes for a block that is
    there already, any other replaces what is newer than its parent. -/
def NativeChain.deliver (c : NativeChain) (b : NativeBlock) : NativeChain :=
  if c.branch.any (fun nb => nb.id = b.id) then c
  else
    { branch := b :: c.branch.dropWhile (fun nb => nb.id ≠ b.prev)
      lib := some (max (c.lib.getD 0) b.lib) }

/-- What a received block leaves of the branch. -/
def NativeChain.kept (c : NativeChain) (b : NativeBlock) : List NativeBlock :=
  c.branch.dropWhile (fun nb => nb.id ≠ b.prev)

/-- What it takes away: nothing, unless it is a fork. -/
def NativeChain.abandoned (c : NativeChain) (b : NativeBlock) :
    List NativeBlock :=
  c.branch.takeWhile (fun nb => nb.id ≠ b.prev)

theorem NativeChain.abandoned_append_kept (c : NativeChain) (b : NativeBlock) :
    c.abandoned b ++ c.kept b = c.branch :=
  List.takeWhile_append_dropWhile

/-- `b` is the next block of the native chain, on top of `parent`. -/
structure Follows (c : NativeChain) (b parent : NativeBlock) :
    Prop where
  mem : parent ∈ c.branch
  link : parent.id = b.prev
  fresh : ∀ nb ∈ c.branch, nb.id ≠ b.id
  number : b.blockNum = parent.blockNum + 1
  later : parent.timestamp ≤ b.timestamp
  positive : 0 < b.timestamp
  /-- Native timestamps count 32-bit half-second slots. -/
  in_range : b.timestamp < 2 ^ 32 * 1000000
  above_lib : c.branch.head? = some parent ∨
    ∀ lib ∈ c.lib, lib ≤ parent.blockNum

instance (c : NativeChain) (b : NativeBlock) :
    Decidable (∃ parent, Follows c b parent) :=
  decidable_of_iff (∃ parent ∈ c.branch, parent.id = b.prev ∧
      (∀ nb ∈ c.branch, nb.id ≠ b.id) ∧ b.blockNum = parent.blockNum + 1 ∧
      parent.timestamp ≤ b.timestamp ∧ 0 < b.timestamp ∧
      b.timestamp < 2 ^ 32 * 1000000 ∧
      (c.branch.head? = some parent ∨ ∀ lib ∈ c.lib, lib ≤ parent.blockNum))
    ⟨fun ⟨p, h₁, h₂, h₃, h₄, h₅, h₆, h₇, h₈⟩ =>
        ⟨p, h₁, h₂, h₃, h₄, h₅, h₆, h₇, h₈⟩,
      fun ⟨p, h₁, h₂, h₃, h₄, h₅, h₆, h₇, h₈⟩ =>
        ⟨p, h₁, h₂, h₃, h₄, h₅, h₆, h₇, h₈⟩⟩

/-- `b` is delivered again, while the plugin still holds it. -/
structure Redelivered (E : Env Tx) (s : State Tx) (b : NativeBlock) : Prop where
  cached : isCached s b.id = true
  not_next : ∀ back ∈ s.nativeBlocks.head?, back.id ≠ b.prev
  after_genesis : E.bm.genesisTimestamp < b.timestamp

instance (E : Env Tx) (s : State Tx) (b : NativeBlock) :
    Decidable (Redelivered E s b) :=
  decidable_of_iff (isCached s b.id = true ∧
      (∀ back ∈ s.nativeBlocks.head?, back.id ≠ b.prev) ∧
      E.bm.genesisTimestamp < b.timestamp)
    ⟨fun ⟨h₁, h₂, h₃⟩ => ⟨h₁, h₂, h₃⟩, fun ⟨h₁, h₂, h₃⟩ => ⟨h₁, h₂, h₃⟩⟩

/-- A block delivered again changes nothing. -/
theorem Redelivered.handler_eq {E : Env Tx} {s : State Tx} {b : NativeBlock}
    (h : Redelivered E s b) : nativeBlocksHandler E s b = .ok s := by
  have hgen : ¬ b.timestamp ≤ E.bm.genesisTimestamp := by
    have := h.after_genesis
    omega
  have hlink : linkNativeBlock E s b = .ok none := by
    cases hback : s.nativeBlocks.head? with
    | none =>
        have hcached := h.cached
        rw [isCached, List.head?_eq_none_iff.mp hback] at hcached
        cases hcached
    | some back => exact linkNativeBlock_duplicate hback (h.not_next back hback) h.cached
  rw [nativeBlocksHandler, if_neg hgen, hlink]
  rfl

/-- The handler together with the chain it has been given. -/
def trackedHandler (E : Env Tx) (p : State Tx × NativeChain) (b : NativeBlock) :
    Except Failure (State Tx × NativeChain) := do
  let s ← nativeBlocksHandler E p.1 b
  .ok (s, p.2.deliver b)

theorem trackedHandler_ok {E : Env Tx} {p q : State Tx × NativeChain}
    {b : NativeBlock} (h : trackedHandler E p b = .ok q) :
    nativeBlocksHandler E p.1 b = .ok q.1 ∧ q.2 = p.2.deliver b := by
  obtain ⟨s, hs, h⟩ := bind_ok h
  have hq : (s, p.2.deliver b) = q := Except.ok.inj h
  subst hq
  exact ⟨hs, rfl⟩

/-- What the environment delivers: the next block, or one that is held. -/
def Delivery (E : Env Tx) (p : State Tx × NativeChain) (b : NativeBlock) : Prop :=
  Redelivered E p.1 b ∨ ∃ parent, Follows p.2 b parent

instance (E : Env Tx) (p : State Tx × NativeChain) (b : NativeBlock) :
    Decidable (Delivery E p b) :=
  inferInstanceAs (Decidable (_ ∨ _))

/-! ## Well-formed branches -/

/-- The branch is numbered and dated along its links and ends at the restored
    native block. -/
structure NativeChain.Wf (startBlock : Block Tx) (c : NativeChain) : Prop where
  linked : c.branch.IsChain (fun x y =>
    y.id = x.prev ∧ x.blockNum = y.blockNum + 1 ∧
      y.timestamp ≤ x.timestamp ∧ 0 < x.timestamp)
  bottom : c.branch.getLast? = some (restoredNativeBlock startBlock)
  ids : c.branch.Pairwise (fun x y => x.id ≠ y.id)

namespace NativeChain

variable {startBlock : Block Tx} {c : NativeChain}

/-- Numbers fall from each block to every older one, and timestamps do not grow. -/
theorem Wf.pairwise (h : Wf startBlock c) :
    c.branch.Pairwise (fun x y =>
      y.blockNum < x.blockNum ∧ y.timestamp ≤ x.timestamp) := by
  have htrans : Trans
      (fun x y : NativeBlock => y.blockNum < x.blockNum ∧ y.timestamp ≤ x.timestamp)
      (fun x y : NativeBlock => y.blockNum < x.blockNum ∧ y.timestamp ≤ x.timestamp)
      (fun x y : NativeBlock =>
        y.blockNum < x.blockNum ∧ y.timestamp ≤ x.timestamp) :=
    ⟨fun hxy hyz => ⟨by omega, by omega⟩⟩
  refine List.isChain_iff_pairwise.mp (List.IsChain.imp ?_ h.linked)
  intro x y hxy
  omega

/-- A branch holds the restored native block at least. -/
theorem Wf.ne_nil (h : Wf startBlock c) : c.branch ≠ [] := by
  intro hnil
  have hbottom := h.bottom
  rw [hnil] at hbottom
  cases hbottom

/-- Blocks of the branch are determined by their ids. -/
theorem Wf.eq_of_id (h : Wf startBlock c) {x y : NativeBlock}
    (hx : x ∈ c.branch) (hy : y ∈ c.branch) (hid : x.id = y.id) : x = y := by
  have hnodup : (c.branch.map (·.id)).Nodup := List.pairwise_map.mpr h.ids
  exact List.inj_on_of_nodup_map hnodup hx hy hid

/-- No block of the branch is numbered above its end. -/
theorem Wf.le_newest (h : Wf startBlock c) {x : NativeBlock}
    (hx : c.branch.head? = some x) : ∀ y ∈ c.branch, y.blockNum ≤ x.blockNum := by
  intro y hy
  obtain ⟨rest, hrest⟩ := List.head?_eq_some_iff.mp hx
  have hpair := h.pairwise
  rw [hrest] at hpair hy
  rcases List.mem_cons.mp hy with rfl | hmem
  · exact Nat.le_refl _
  · exact Nat.le_of_lt ((List.pairwise_cons.mp hpair).1 y hmem).1

/-- A lower number is dated no later. -/
theorem Wf.timestamp_le (h : Wf startBlock c) {x y : NativeBlock}
    (hx : x ∈ c.branch) (hy : y ∈ c.branch) (hle : x.blockNum ≤ y.blockNum) :
    x.timestamp ≤ y.timestamp := by
  obtain ⟨newer, older, hsplit⟩ := List.append_of_mem hy
  have hpair := h.pairwise
  rw [hsplit, List.pairwise_append] at hpair
  rw [hsplit] at hx
  rcases List.mem_append.mp hx with hmem | hmem
  · have := hpair.2.2 x hmem y List.mem_cons_self
    omega
  · rcases List.mem_cons.mp hmem with rfl | hmem
    · exact Nat.le_refl _
    · have := (List.pairwise_cons.mp hpair.2.1).1 x hmem
      omega

/-- A prefix of the branch that reaches down to `x` holds everything newer. -/
theorem Wf.mem_of_prefix (h : Wf startBlock c) {natives : List NativeBlock}
    (hpre : natives <+: c.branch) {x y : NativeBlock} (hx : x ∈ natives)
    (hy : y ∈ c.branch) (hle : x.blockNum ≤ y.blockNum) : y ∈ natives := by
  obtain ⟨rest, hrest⟩ := hpre
  have hpair := h.pairwise
  rw [← hrest, List.pairwise_append] at hpair
  rw [← hrest] at hy
  rcases List.mem_append.mp hy with hmem | hmem
  · exact hmem
  · have := hpair.2.2 x hx y hmem
    omega

/-- The branch is numbered and dated from the restored native block on. -/
theorem Wf.restored_or_lt (h : Wf startBlock c) {x : NativeBlock}
    (hx : x ∈ c.branch) :
    x = restoredNativeBlock startBlock ∨
      ((restoredNativeBlock startBlock).blockNum < x.blockNum ∧
        (restoredNativeBlock startBlock).timestamp ≤ x.timestamp) := by
  obtain ⟨newer, hsplit⟩ := List.getLast?_eq_some_iff.mp h.bottom
  have hpair := h.pairwise
  rw [hsplit, List.pairwise_append] at hpair
  rw [hsplit] at hx
  rcases List.mem_append.mp hx with hmem | hmem
  · exact Or.inr (hpair.2.2 x hmem _ (List.mem_singleton_self _))
  · exact Or.inl (List.mem_singleton.mp hmem)

theorem Wf.restored_le (h : Wf startBlock c) {x : NativeBlock}
    (hx : x ∈ c.branch) :
    (restoredNativeBlock startBlock).timestamp ≤ x.timestamp := by
  rcases h.restored_or_lt hx with rfl | hlt
  · exact Nat.le_refl _
  · exact hlt.2

theorem Wf.restored_mem (h : Wf startBlock c) :
    restoredNativeBlock startBlock ∈ c.branch :=
  List.mem_of_getLast? h.bottom

/-- From the restored native block to any block of the branch every number is
    taken. -/
theorem Wf.exists_number (h : Wf startBlock c) {x : NativeBlock} {k : Nat}
    (hx : x ∈ c.branch) (hle : k ≤ x.blockNum)
    (hge : (restoredNativeBlock startBlock).blockNum ≤ k) :
    ∃ nb ∈ c.branch, nb.blockNum = k := by
  have hdescending : c.branch.IsChain (fun x y => x.blockNum = y.blockNum + 1) := by
    refine List.IsChain.imp ?_ h.linked
    rintro x y ⟨-, hnum, -⟩
    exact hnum
  refine exists_eq_of_descending hdescending ?_ x hx hle
  intro last hlast
  rw [h.bottom] at hlast
  rw [← Option.some.inj hlast]
  exact hge

/-- What is left of the branch below a fork at `parent`. -/
theorem Wf.dropWhile_eq (h : Wf startBlock c) {parent : NativeBlock}
    {id : Bytes32} (hmem : parent ∈ c.branch) (hid : parent.id = id) :
    ∃ newer older, c.branch = newer ++ parent :: older ∧
      c.branch.dropWhile (fun nb => nb.id ≠ id) = parent :: older := by
  cases hdrop : c.branch.dropWhile (fun nb => nb.id ≠ id) with
  | nil =>
      rw [List.dropWhile_eq_nil_iff] at hdrop
      have := hdrop parent hmem
      simp [hid] at this
  | cons x older =>
      have hx : x.id = id := id_of_dropWhile hdrop
      have hsuf : x :: older <:+ c.branch := by
        rw [← hdrop]
        exact List.dropWhile_suffix _
      obtain rfl : x = parent :=
        h.eq_of_id (hsuf.subset List.mem_cons_self) hmem (hx.trans hid.symm)
      obtain ⟨newer, hnewer⟩ := hsuf
      exact ⟨newer, older, hnewer.symm, rfl⟩

theorem wf_start (startBlock : Block Tx) :
    Wf startBlock (NativeChain.start startBlock) where
  linked := List.isChain_singleton _
  bottom := rfl
  ids := List.pairwise_singleton _ _

/-- A fresh block is not in the branch. -/
theorem deliver_of_follows {b parent : NativeBlock} (hb : Follows c b parent) :
    c.deliver b =
      { branch := b :: c.branch.dropWhile (fun nb => nb.id ≠ b.prev)
        lib := some (max (c.lib.getD 0) b.lib) } := by
  have hnone : ¬ c.branch.any (fun nb => nb.id = b.id) = true := by
    intro hany
    obtain ⟨nb, hnb, hid⟩ := List.any_eq_true.mp hany
    exact hb.fresh nb hnb (by simpa using hid)
  rw [deliver, if_neg hnone]

/-- The next block keeps the branch well formed. -/
theorem Wf.deliver (h : Wf startBlock c) {b parent : NativeBlock}
    (hb : Follows c b parent) : Wf startBlock (c.deliver b) := by
  obtain ⟨newer, older, hsplit, hdrop⟩ := h.dropWhile_eq hb.mem hb.link
  have hsub : ∀ nb ∈ parent :: older, nb ∈ c.branch := by
    intro nb hnb
    rw [hsplit]
    exact List.mem_append_right _ hnb
  have hsuf : parent :: older <:+ c.branch := ⟨newer, hsplit.symm⟩
  rw [deliver_of_follows hb, hdrop]
  refine ⟨?_, ?_, ?_⟩
  · exact List.isChain_cons_cons.mpr ⟨⟨hb.link, hb.number, hb.later, hb.positive⟩,
      List.IsChain.suffix h.linked hsuf⟩
  · have hbottom := h.bottom
    rw [hsplit, List.getLast?_append_of_ne_nil _ (List.cons_ne_nil _ _)] at hbottom
    rw [List.getLast?_cons_cons]
    exact hbottom
  · have hids := h.ids
    rw [hsplit, List.pairwise_append] at hids
    refine List.pairwise_cons.mpr ⟨?_, hids.2.1⟩
    intro nb hnb heq
    exact hb.fresh nb (hsub nb hnb) heq.symm

/-- A block at or below some reported LIB is in every later branch. -/
theorem Wf.mem_deliver (h : Wf startBlock c) {b parent it : NativeBlock}
    (hb : Follows c b parent) (hit : it ∈ c.branch)
    (hlib : ∃ lib ∈ c.lib, it.blockNum ≤ lib) :
    it.blockNum ≤ parent.blockNum ∧ it ∈ (c.deliver b).branch := by
  obtain ⟨newer, older, hsplit, hdrop⟩ := h.dropWhile_eq hb.mem hb.link
  have hpair := h.pairwise
  have hle : it.blockNum ≤ parent.blockNum := by
    rcases hb.above_lib with hhead | habove
    · obtain ⟨rest, hrest⟩ := List.head?_eq_some_iff.mp hhead
      rw [hrest] at hit hpair
      rcases List.mem_cons.mp hit with rfl | hmem
      · exact Nat.le_refl _
      · have := (List.pairwise_cons.mp hpair).1 it hmem
        omega
    · obtain ⟨lib, hmem, hle⟩ := hlib
      have := habove lib hmem
      omega
  refine ⟨hle, ?_⟩
  rw [deliver_of_follows hb, hdrop]
  rw [hsplit] at hit hpair
  rcases List.mem_append.mp hit with hmem | hmem
  · have := (List.pairwise_append.mp hpair).2.2 it hmem parent List.mem_cons_self
    omega
  · exact List.mem_cons_of_mem _ hmem

/-- The largest LIB does not decrease. -/
theorem lib_deliver {b parent : NativeBlock} (hb : Follows c b parent) :
    ∃ lib, (c.deliver b).lib = some lib ∧ b.lib ≤ lib ∧ ∀ l ∈ c.lib, l ≤ lib := by
  refine ⟨max (c.lib.getD 0) b.lib, by rw [deliver_of_follows hb],
    Nat.le_max_right _ _, ?_⟩
  intro l hl
  rw [show c.lib = some l from hl]
  exact Nat.le_max_left _ _

end NativeChain

/-- The next block is dated as `Dated` asks. -/
theorem Follows.dated {E : Env Tx} {startBlock : Block Tx} {s : State Tx}
    {c : NativeChain} {b parent : NativeBlock} (hE : Started E startBlock)
    (hc : c.Wf startBlock) (hcached : s.nativeBlocks <+: c.branch)
    (hb : Follows c b parent) : Dated E s b := by
  have hlater := hb.later
  have hrestored := hc.restored_le hb.mem
  have hgenesis := hE.genesis_le
  refine ⟨by omega, hb.positive, ?_⟩
  intro nb hnb hid
  have heq := hc.eq_of_id (hcached.subset hnb) hb.mem (hid.trans hb.link.symm)
  rw [heq]
  omega

end BlockConversion
