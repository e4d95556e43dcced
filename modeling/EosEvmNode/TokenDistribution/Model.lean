import EosEvmNode.Lib.Runs
import Mathlib.Data.List.Nodup

/-! # Token distribution — `distribute_to_accounts.py`

    The script signs one transaction for each account of a list, with consecutive
    nonces, and pushes them in batches.  It counts its nonce up as it goes and reads the
    nonce of the chain only now and then.

    A batch is one native transaction.  It may be applied at any time after it was
    pushed, or never. -/

namespace TokenDistribution

/-- A signed transaction of the sender; `rlptx` is its encoding. -/
structure Transaction where
  nonce : Nat
  gasprice : Nat
  startgas : Nat
  acc : List Char
  value : Nat
  data : List UInt8
  deriving DecidableEq, Repr

/-- A row of the CSV file. -/
structure Row where
  acc : List Char
  bal : Nat

def startingNonce : Nat := 3

def batchSize : Nat := 20

/-- Ten seconds; times are in microseconds. -/
def queryTimeout : Int := 10 * 1000000

/-! ## The transactions -/

/-- The address without its `0x`. -/
def strip (acc : List Char) : List Char :=
  if acc.take 2 = ['0', 'x'] then acc.drop 2 else acc

/-- One row is read. -/
def readRow (toAccBals : List Transaction) (row : Row) : List Transaction :=
  toAccBals ++
    [{ nonce := startingNonce + toAccBals.length
       gasprice := 150000000000
       startgas := 100000
       acc := strip row.acc
       value := row.bal
       data := [] }]

/-- `to_acc_bals`. -/
def readAccounts (rows : List Row) : List Transaction := rows.foldl readRow []

/-- The nonces count up from the starting nonce. -/
def Numbered (txs : List Transaction) : Prop :=
  txs.map Transaction.nonce = List.range' startingNonce txs.length

theorem numbered_nil : Numbered [] := rfl

/-- The next transaction has the next nonce. -/
theorem numbered_concat {txs : List Transaction} {tx : Transaction} (h : Numbered txs)
    (hnonce : tx.nonce = startingNonce + txs.length) : Numbered (txs ++ [tx]) := by
  show (txs ++ [tx]).map Transaction.nonce =
    List.range' startingNonce (txs ++ [tx]).length
  rw [List.map_append, show txs.map Transaction.nonce = _ from h, List.length_append,
    List.length_singleton, List.range'_concat, Nat.one_mul, List.map_singleton, hnonce]

theorem foldl_readRow_numbered (rows : List Row) :
    ∀ txs, Numbered txs → Numbered (rows.foldl readRow txs) := by
  induction rows with
  | nil => exact fun _ h => h
  | cons row rows ih => exact fun txs h => ih _ (numbered_concat h rfl)

theorem readAccounts_numbered (rows : List Row) : Numbered (readAccounts rows) :=
  foldl_readRow_numbered rows [] numbered_nil

theorem foldl_readRow_length (rows : List Row) :
    ∀ txs, (rows.foldl readRow txs).length = txs.length + rows.length := by
  induction rows with
  | nil => exact fun _ => rfl
  | cons row rows ih =>
      intro txs
      rw [List.foldl_cons, ih, readRow, List.length_append, List.length_singleton,
        List.length_cons]
      omega

/-- One transaction for each account. -/
theorem readAccounts_length (rows : List Row) : (readAccounts rows).length = rows.length := by
  rw [readAccounts, foldl_readRow_length, List.length_nil, Nat.zero_add]

section Numbers

variable {txs : List Transaction}

theorem Numbered.nonce (h : Numbered txs) {k : Nat} (hk : k < txs.length) :
    txs[k].nonce = startingNonce + k := by
  have hmap : (txs.map Transaction.nonce)[k]? =
      (List.range' startingNonce txs.length)[k]? := by rw [h]
  rw [List.getElem?_map, List.getElem?_eq_getElem hk, List.getElem?_range' hk,
    Nat.one_mul] at hmap
  exact Option.some.inj hmap

/-- No transaction occurs twice. -/
theorem Numbered.nodup (h : Numbered txs) : txs.Nodup := by
  refine List.Nodup.of_map Transaction.nonce ?_
  rw [h]
  exact List.nodup_range'

/-- A transaction stands where its nonce says. -/
theorem Numbered.getElem_of_mem (h : Numbered txs) {tx : Transaction} (htx : tx ∈ txs)
    {k : Nat} (hnonce : tx.nonce = startingNonce + k) : ∃ hk : k < txs.length, txs[k] = tx := by
  obtain ⟨j, hj, rfl⟩ := List.mem_iff_getElem.mp htx
  rw [h.nonce hj] at hnonce
  obtain rfl : j = k := by omega
  exact ⟨hj, rfl⟩

end Numbers

/-! ## The chain -/

/-- What has been applied of the sender, from the starting nonce on. -/
structure Chain where
  sent : List Transaction
  numbered : Numbered sent

/-- What `queryNonce` returns. -/
def Chain.nonce (c : Chain) : Nat := startingNonce + c.sent.length

def Chain.empty : Chain := ⟨[], numbered_nil⟩

/-- The action `pushtx`: the nonce must be the next one. -/
def Chain.pushtx (c : Chain) (tx : Transaction) : Option Chain :=
  if h : tx.nonce = c.nonce then some ⟨c.sent ++ [tx], numbered_concat c.numbered h⟩
  else none

/-- A native transaction: all of its actions or none. -/
def Chain.apply (c : Chain) (actions : List Transaction) : Chain :=
  (actions.foldlM Chain.pushtx c).getD c

theorem pushtx_some {c c' : Chain} {tx : Transaction} (h : c.pushtx tx = some c') :
    c'.sent = c.sent ++ [tx] := by
  unfold Chain.pushtx at h
  by_cases hnonce : tx.nonce = c.nonce
  · rw [dif_pos hnonce] at h
    exact (congrArg Chain.sent (Option.some.inj h)).symm
  · rw [dif_neg hnonce] at h
    cases h

theorem foldlM_pushtx_some {actions : List Transaction} :
    ∀ {c c' : Chain}, actions.foldlM Chain.pushtx c = some c' →
      c'.sent = c.sent ++ actions := by
  induction actions with
  | nil =>
      intro c c' h
      rw [← Option.some.inj h, List.append_nil]
  | cons tx actions ih =>
      intro c c' h
      rw [List.foldlM_cons] at h
      obtain ⟨d, hpush, hrest⟩ := Option.bind_eq_some_iff.mp h
      rw [ih hrest, pushtx_some hpush, List.append_assoc]
      rfl

/-- A batch leaves the chain as it is, or is applied as a whole. -/
theorem apply_cases (c : Chain) (actions : List Transaction) :
    c.apply actions = c ∨ (c.apply actions).sent = c.sent ++ actions := by
  unfold Chain.apply
  cases h : actions.foldlM Chain.pushtx c with
  | none => exact Or.inl rfl
  | some c' => exact Or.inr (foldlM_pushtx_some h)

/-! ## The script -/

/-- A native transaction under construction, with the count of nonces. -/
structure Filling where
  actions : List Transaction
  currentNonce : Nat

/-- The inner loop: `room` is what is left of the batch from the index `i` on. -/
def fill (txs : List Transaction) : Nat → Nat → Filling → Filling
  | 0, _, b => b
  | room + 1, i, b =>
      match txs[i]? with
      | none => b
      | some rlptx => fill txs room (i + 1) ⟨b.actions ++ [rlptx], b.currentNonce + 1⟩

/-- A batch, as the outer loop builds it; its first account is there by the condition of
    that loop. -/
def buildBatch (txs : List Transaction) (currentNonce : Nat) : Filling :=
  fill txs batchSize (currentNonce - startingNonce) ⟨[], currentNonce⟩

/-- The transactions of a batch that starts at an index. -/
def slice (txs : List Transaction) (i : Nat) : List Transaction :=
  (txs.drop i).take batchSize

theorem fill_eq (txs : List Transaction) :
    ∀ room i b, fill txs room i b =
      ⟨b.actions ++ (txs.drop i).take room,
        b.currentNonce + ((txs.drop i).take room).length⟩ := by
  intro room
  induction room with
  | zero =>
      intro i b
      rw [List.take_zero, List.append_nil]
      rfl
  | succ room ih =>
      intro i b
      show (match txs[i]? with
        | none => b
        | some rlptx => fill txs room (i + 1) ⟨b.actions ++ [rlptx], b.currentNonce + 1⟩) = _
      by_cases hi : i < txs.length
      · rw [List.getElem?_eq_getElem hi]
        show fill txs room (i + 1) ⟨b.actions ++ [txs[i]], b.currentNonce + 1⟩ = _
        rw [ih, List.drop_eq_getElem_cons hi, List.take_succ_cons, List.append_assoc,
          List.length_cons]
        show Filling.mk (b.actions ++ _) (b.currentNonce + 1 + _) = _
        rw [List.singleton_append, Nat.add_assoc, Nat.add_comm 1]
      · rw [List.getElem?_eq_none (by omega), List.drop_eq_nil_of_le (by omega),
          List.take_nil, List.append_nil]
        rfl

/-- The batch at a nonce. -/
theorem buildBatch_eq (txs : List Transaction) (currentNonce : Nat) :
    buildBatch txs currentNonce =
      ⟨slice txs (currentNonce - startingNonce),
        currentNonce + (slice txs (currentNonce - startingNonce)).length⟩ := by
  rw [buildBatch, fill_eq, List.nil_append]
  rfl

/-- Where the script is. -/
inductive Phase where
  /-- Before the first query. -/
  | starting
  /-- In the body of the loop. -/
  | pushing
  /-- A batch has been pushed, and the clock is read. -/
  | checking
  /-- The nonce is due to be read. -/
  | querying
  /-- It was the last one; it is read again after a pause. -/
  | confirming
  /-- Past the loop: `Successfully distribute tokens`. -/
  | succeeded
  deriving DecidableEq, Repr

/-- The script and the chain.  `pushed` are the batches so far. -/
structure State where
  chain : Chain
  pushed : List (List Transaction)
  currentNonce : Nat
  lastQueryTime : Int
  phase : Phase

/-- Before the start, on a chain that has applied these transactions. -/
def State.init (history : Chain) : State where
  chain := history
  pushed := []
  currentNonce := 0
  lastQueryTime := 0
  phase := .starting

inductive Event where
  /-- `queryNonce` returns, and the clock is read after it. -/
  | query (now : Int)
  /-- A batch is built and pushed. -/
  | push
  /-- `time.time()` after a push. -/
  | clock (now : Int)
  /-- One of the batches pushed so far reaches the chain. -/
  | land (k : Nat)
  /-- A query or `cleos` raises an exception. -/
  | throw
  deriving DecidableEq, Repr

inductive Failure where
  /-- The script ends with an exception. -/
  | exception
  /-- Nothing of the kind happens here. -/
  | outOfPlace
  deriving DecidableEq, Repr

/-- The condition of the outer loop.  No nonce of the chain is below the starting
    nonce. -/
def State.loop (txs : List Transaction) (s : State) : State :=
  { s with phase :=
      if s.currentNonce - startingNonce < txs.length then .pushing else .succeeded }

/-- `current_nonce = queryNonce()`. -/
def State.resync (s : State) : State := { s with currentNonce := s.chain.nonce }

def State.queriedAt (s : State) (now : Int) : State := { s with lastQueryTime := now }

def State.query (txs : List Transaction) (s : State) (now : Int) :
    Except Failure State :=
  match s.phase with
  | .starting => .ok ((s.resync.queriedAt now).loop txs)
  | .querying =>
      if s.resync.currentNonce - startingNonce = txs.length then
        .ok { s.resync with phase := .confirming }
      else .ok ((s.resync.queriedAt now).loop txs)
  | .confirming => .ok ((s.resync.queriedAt now).loop txs)
  | _ => .error .outOfPlace

def State.push (txs : List Transaction) (s : State) : Except Failure State :=
  match s.phase with
  | .pushing =>
      let b := buildBatch txs s.currentNonce
      .ok { s with
        pushed := s.pushed ++ [b.actions]
        currentNonce := b.currentNonce
        phase := .checking }
  | _ => .error .outOfPlace

def State.clock (txs : List Transaction) (s : State) (now : Int) :
    Except Failure State :=
  match s.phase with
  | .checking =>
      if now - s.lastQueryTime ≥ queryTimeout then .ok { s with phase := .querying }
      else .ok (s.loop txs)
  | _ => .error .outOfPlace

def State.land (s : State) (k : Nat) : Except Failure State :=
  match s.pushed[k]? with
  | none => .error .outOfPlace
  | some actions => .ok { s with chain := s.chain.apply actions }

def step (txs : List Transaction) (s : State) : Event → Except Failure State
  | .query now => s.query txs now
  | .push => s.push txs
  | .clock now => s.clock txs now
  | .land k => s.land k
  | .throw => .error .exception

end TokenDistribution
