import EosEvmNode.WsProxy.Window
import Mathlib.Data.List.DropRight
import Mathlib.Data.List.Range

/-! # A poll against a fixed chain

    While the chain of the RPC does not change, a poll first unwinds the window to the
    newest block that is on the chain, then extends it block by block, and stops below
    the head.  Neither the length of the window nor its newest number falls or rises
    throughout: the unwinding goes by induction over the window, and the extension by
    induction over the blocks that are missing. -/

namespace WsProxy

/-- The chain of an RPC that does not change: its blocks up to the head, with their
    logs. -/
structure RpcChain where
  head : Nat
  blockAt : Nat → Block
  numbered : ∀ k ≤ head, (blockAt k).number = k
  linked : ∀ k < head, (blockAt (k + 1)).parentHash = (blockAt k).hash
  logged : ∀ k ≤ head, ∀ log ∈ (blockAt k).logs,
    log.blockHash ≠ "" ∧ log.blockHash = (blockAt k).hash

namespace RpcChain

/-- Is the block on the chain? -/
def has (C : RpcChain) (block : Block) : Bool :=
  decide (block.number ≤ C.head ∧ block = C.blockAt block.number)

/-- How the chain answers the requests of a poll. -/
def answer (C : RpcChain) (evmLib : Nat) : Poll → Answer
  | .firstHead => .head (some C.head)
  | .nextHead _ _ => .head (some C.head)
  | .firstBlock number => .ofBlock (C.blockAt number.toNat)
  | .nextBlock _ number => .ofBlock (C.blockAt number.toNat)
  | .info => .info
  | .libBlock => .lib evmLib

/-- The longest part of the window, from its oldest block on, that is on the chain. -/
def common (C : RpcChain) (window : List Block) : List Block :=
  window.rtakeWhile C.has

/-- The other blocks of the window, newest first. -/
def others (C : RpcChain) (window : List Block) : List Block :=
  window.rdropWhile C.has

/-- The blocks above number `n` up to the last one a poll asks for, in ascending
    order. -/
def above (C : RpcChain) (n : Nat) : List Block :=
  (List.range' (n + 1) (C.head - 2 - n)).map C.blockAt

/-- The blocks that continue the common part. -/
def missing (C : RpcChain) (window : List Block) : List Block :=
  match C.common window with
  | [] => []
  | last :: _ => C.above last.number

/-- The window before pruning. -/
def converged (C : RpcChain) (window : List Block) : List Block :=
  (C.missing window).reverse ++ C.common window

/-- What is emitted on the way. -/
def changes (C : RpcChain) (window : List Block) : List BlockEvent :=
  (C.others window).map .forked ++ (C.missing window).map .appended

end RpcChain

/-- A poll goes on, answered `n` times, with the events it has emitted. -/
def drive (answer : Poll → Answer) : Nat → Outcome → Outcome
  | 0, o => o
  | n + 1, ⟨window, events, .await p⟩ =>
      let o := resume window p (answer p)
      drive answer n ⟨o.window, events ++ o.events, o.progress⟩
  | _ + 1, ⟨window, events, .done⟩ => ⟨window, events, .done⟩

section Drive

variable {answer : Poll → Answer}

theorem drive_await (n : Nat) {window : List Block} (events : List BlockEvent) {p : Poll}
    {o : Outcome} (h : resume window p (answer p) = o) :
    drive answer (n + 1) ⟨window, events, .await p⟩
      = drive answer n ⟨o.window, events ++ o.events, o.progress⟩ := by
  rw [← h]
  rfl

theorem drive_done (n : Nat) (window : List Block) (events : List BlockEvent) :
    drive answer n ⟨window, events, .done⟩ = ⟨window, events, .done⟩ := by
  cases n <;> rfl

theorem drive_add (m n : Nat) (o : Outcome) :
    drive answer (m + n) o = drive answer n (drive answer m o) := by
  induction m generalizing o with
  | zero => rw [Nat.zero_add, drive]
  | succ m ih =>
      obtain ⟨window, events, progress⟩ := o
      cases progress with
      | await p =>
          rw [Nat.succ_add, drive_await _ _ rfl, drive_await _ _ rfl]
          exact ih _
      | done => rw [drive_done, drive_done, drive_done]

end Drive

section Converging

variable {C : RpcChain} {evmLib : Nat}

/-- A block of the chain passes the checks on its request. -/
theorem RpcChain.getBlockWithLogs_blockAt {k : Nat} (hk : k ≤ C.head) :
    getBlockWithLogs ⟨some (C.blockAt k), some (C.blockAt k).logs⟩
      = .ok (C.blockAt k) := by
  have hnamed : (C.blockAt k).logs.any (fun log => log.blockHash = "") = false := by
    rw [List.any_eq_false]
    intro log hlog
    simpa using (C.logged k hk log hlog).1
  have hmatched : (C.blockAt k).logs.any
      (fun log => log.blockHash ≠ (C.blockAt k).hash) = false := by
    rw [List.any_eq_false]
    intro log hlog
    simpa using (C.logged k hk log hlog).2
  rw [getBlockWithLogs]
  simp only [hnamed, hmatched, Bool.false_eq_true, if_false]

/-- Below the last block it may ask for, a poll gets the next block of the chain, and
    compares it with the last one of the window. -/
theorem drive_next {last : Block} {rest : List Block} {found : Bool}
    (events : List BlockEvent) (hlt : last.number + 2 < C.head) :
    drive (C.answer evmLib) 2
        ⟨last :: rest, events, .await (.nextHead (some last) found)⟩
      = if (C.blockAt (last.number + 1)).parentHash = last.hash then
          ⟨C.blockAt (last.number + 1) :: last :: rest,
            events ++ [.appended (C.blockAt (last.number + 1))],
            .await (.nextHead (some (C.blockAt (last.number + 1))) true)⟩
        else ⟨rest, events ++ [.forked last], .await (.nextHead rest.head? true)⟩ := by
  have hhead : resume (last :: rest) (.nextHead (some last) found)
      (C.answer evmLib (.nextHead (some last) found))
      = ⟨last :: rest, [], .await (.nextBlock (some last) (last.number + 1))⟩ := by
    show (if (C.head : Int) - 1 ≤ last.number + 1 then _ else _) = _
    rw [if_neg (by omega)]
  have hnumber : ((last.number : Int) + 1).toNat = last.number + 1 := by omega
  have hblock : resume (last :: rest) (.nextBlock (some last) (last.number + 1))
      (C.answer evmLib (.nextBlock (some last) (last.number + 1)))
      = if (C.blockAt (last.number + 1)).parentHash = last.hash then
          ⟨C.blockAt (last.number + 1) :: last :: rest,
            [.appended (C.blockAt (last.number + 1))],
            .await (.nextHead (some (C.blockAt (last.number + 1))) true)⟩
        else ⟨rest, [.forked last], .await (.nextHead rest.head? true)⟩ := by
    show resume _ _ (.ofBlock (C.blockAt ((last.number : Int) + 1).toNat)) = _
    rw [hnumber, Answer.ofBlock, resume,
      C.getBlockWithLogs_blockAt (by omega : last.number + 1 ≤ C.head)]
  rw [drive_await 1 events hhead, drive_await 0 _ hblock, drive, List.append_nil]
  split <;> rfl

/-- At the last block it may ask for, the loop ends. -/
theorem drive_last {last : Block} {rest : List Block} {found : Bool}
    (events : List BlockEvent) (hge : C.head ≤ last.number + 2) :
    drive (C.answer evmLib) 1
        ⟨last :: rest, events, .await (.nextHead (some last) found)⟩
      = ⟨last :: rest, events, afterLoop (last :: rest) found⟩ := by
  have hhead : resume (last :: rest) (.nextHead (some last) found)
      (C.answer evmLib (.nextHead (some last) found))
      = ⟨last :: rest, [], afterLoop (last :: rest) found⟩ := by
    show (if (C.head : Int) - 1 ≤ last.number + 1 then _ else _) = _
    rw [if_pos (by omega)]
  rw [drive_await 0 events hhead, drive, List.append_nil]

/-- Without a last block the loop ends with the next answer. -/
theorem drive_empty (events : List BlockEvent) (hpos : 0 < C.head) :
    drive (C.answer evmLib) 2 ⟨[], events, .await (.nextHead none true)⟩
      = ⟨[], events, afterLoop [] true⟩ := by
  have hnumber : ((C.head : Int) - 1).toNat = C.head - 1 := by omega
  have hblock : resume [] (.nextBlock none ((C.head : Int) - 1))
      (C.answer evmLib (.nextBlock none ((C.head : Int) - 1)))
      = ⟨[], [], afterLoop [] true⟩ := by
    show resume _ _ (.ofBlock (C.blockAt ((C.head : Int) - 1).toNat)) = _
    rw [hnumber, Answer.ofBlock, resume,
      C.getBlockWithLogs_blockAt (by omega : C.head - 1 ≤ C.head)]
  have hhead : resume [] (.nextHead none true) (C.answer evmLib (.nextHead none true))
      = ⟨[], [], .await (.nextBlock none ((C.head : Int) - 1))⟩ := rfl
  rw [drive_await 1 events hhead, drive_await 0 _ hblock, drive, List.append_nil,
    List.append_nil]

/-- **The extension**, by induction over the missing blocks. -/
theorem drive_extend (evmLib d : Nat) :
    ∀ (m : Nat) (found : Bool) (rest : List Block) (events : List BlockEvent),
      m + d + 2 = C.head → found = true ∨ 0 < d →
      drive (C.answer evmLib) (2 * d + 1)
          ⟨C.blockAt m :: rest, events, .await (.nextHead (some (C.blockAt m)) found)⟩
        = ⟨((List.range' (m + 1) d).map C.blockAt).reverse ++ C.blockAt m :: rest,
            events ++ ((List.range' (m + 1) d).map C.blockAt).map .appended,
            afterLoop (((List.range' (m + 1) d).map C.blockAt).reverse
              ++ C.blockAt m :: rest) true⟩ := by
  induction d with
  | zero =>
      intro m found rest events hm hfound
      have hnumber := C.numbered m (by omega)
      obtain rfl : found = true := hfound.resolve_right (Nat.lt_irrefl 0)
      rw [drive_last events (by omega), List.range'_zero, List.map_nil, List.map_nil,
        List.reverse_nil, List.nil_append, List.append_nil]
  | succ d ih =>
      intro m found rest events hm _
      have hnumber := C.numbered m (by omega)
      have hparent : (C.blockAt (m + 1)).parentHash = (C.blockAt m).hash :=
        C.linked m (by omega)
      rw [show 2 * (d + 1) + 1 = 2 + (2 * d + 1) by omega, drive_add,
        drive_next events (by omega), hnumber, if_pos hparent,
        ih (m + 1) true _ _ (by omega) (Or.inl rfl), List.range'_succ, List.map_cons, List.map_cons,
        List.reverse_cons, List.append_assoc, List.append_assoc]
      rfl

/-- A hash determines its block. -/
def RpcChain.Determines (C : RpcChain) (window : List Block) : Prop :=
  ∀ block ∈ window, ∀ k ≤ C.head, block.hash = (C.blockAt k).hash → block = C.blockAt k

theorem RpcChain.has_iff {block : Block} :
    C.has block = true ↔ block.number ≤ C.head ∧ block = C.blockAt block.number :=
  decide_eq_true_iff

/-- Below a block on the chain the window is on the chain. -/
theorem Linked.has_of_head {window : List Block} :
    Linked window → C.Determines window → (∀ last ∈ window.head?, C.has last = true) →
      ∀ block ∈ window, C.has block = true := by
  induction window with
  | nil => rintro - - - block ⟨⟩
  | cons last rest ih =>
      intro hlinked hdetermines hlast block hblock
      rcases List.mem_cons.mp hblock with rfl | hmem
      · exact hlast block rfl
      · refine ih hlinked.tail
          (fun b hb => hdetermines b (List.mem_cons_of_mem _ hb)) ?_ block hmem
        intro below hbelow
        obtain ⟨rest', rfl⟩ := List.head?_eq_some_iff.mp hbelow
        obtain ⟨hparent, hnumber⟩ := (List.isChain_cons_cons.mp hlinked).1
        obtain ⟨hle, heq⟩ := RpcChain.has_iff.mp (hlast last rfl)
        -- the parent of a block of the chain is the block below it
        have hhash : below.hash = (C.blockAt below.number).hash := by
          rw [← C.linked below.number (by omega), ← hnumber, ← heq, hparent]
        exact RpcChain.has_iff.mpr ⟨by omega, hdetermines below
          (List.mem_cons_of_mem _ List.mem_cons_self) _ (by omega) hhash⟩

/-- What is on the chain is found below a block that is not. -/
theorem RpcChain.common_cons_of_not {last : Block} (rest : List Block)
    (h : C.has last = false) :
    C.common (last :: rest) = C.common rest ∧
      C.others (last :: rest) = last :: C.others rest := by
  have hcommon : C.common (last :: rest) = C.common rest := by
    rw [common, common, List.rtakeWhile, List.rtakeWhile, List.reverse_cons,
      List.takeWhile_append]
    split
    · next hlength =>
        have hall : rest.reverse.takeWhile C.has = rest.reverse :=
          (List.takeWhile_prefix _).eq_of_length hlength
        rw [hall, List.takeWhile_cons_of_neg (by rw [h]; exact Bool.false_ne_true),
          List.append_nil]
    · rfl
  refine ⟨hcommon, ?_⟩
  have hwhole : C.others (last :: rest) ++ C.common (last :: rest) = last :: rest :=
    List.rdropWhile_append_rtakeWhile
  have hrest : C.others rest ++ C.common rest = rest :=
    List.rdropWhile_append_rtakeWhile
  have hsame : C.others (last :: rest) ++ C.common rest
      = (last :: C.others rest) ++ C.common rest := by
    rw [List.cons_append, hrest, ← hcommon]
    exact hwhole
  exact List.append_cancel_right hsame

/-- A window whose last block is on the chain is its own common part. -/
theorem RpcChain.whole_of_has {last : Block} {rest : List Block}
    (hlinked : Linked (last :: rest)) (hdetermines : C.Determines (last :: rest))
    (hhas : C.has last = true) :
    C.common (last :: rest) = last :: rest ∧ C.others (last :: rest) = [] ∧
      C.missing (last :: rest) = C.above last.number := by
  have hall : ∀ block ∈ last :: rest, C.has block = true := by
    refine hlinked.has_of_head hdetermines ?_
    intro x hx
    obtain rfl := Option.some.inj hx
    exact hhas
  have hcommon : C.common (last :: rest) = last :: rest :=
    List.rtakeWhile_eq_self_iff.mpr hall
  refine ⟨hcommon, List.rdropWhile_eq_nil_iff.mpr hall, ?_⟩
  rw [missing, hcommon]

/-- The block above a block that is not on the chain has another parent. -/
theorem RpcChain.parentHash_ne {last : Block} {rest : List Block}
    (hdetermines : C.Determines (last :: rest)) (hhas : C.has last = false)
    (hlt : last.number < C.head) :
    (C.blockAt (last.number + 1)).parentHash ≠ last.hash := by
  intro heq
  rw [C.linked last.number hlt] at heq
  have hblock := hdetermines last List.mem_cons_self last.number (by omega) heq.symm
  rw [RpcChain.has_iff.mpr ⟨by omega, hblock⟩] at hhas
  cases hhas

/-- **The unwinding**, by induction over the window, and then the extension. -/
theorem drive_unwind (evmLib : Nat) (hpos : 0 < C.head) {window : List Block} :
    Linked window → C.Determines window →
      (∀ last ∈ window.head?, last.number + 2 < C.head) →
      ∀ (events : List BlockEvent) (found : Bool), window ≠ [] ∨ found = true →
        ∃ n, drive (C.answer evmLib) n
            ⟨window, events, .await (.nextHead window.head? found)⟩
          = ⟨C.converged window, events ++ C.changes window,
              afterLoop (C.converged window) true⟩ := by
  induction window with
  | nil =>
      intro _ _ _ events found hfound
      obtain rfl : found = true := hfound.resolve_left fun hne => hne rfl
      refine ⟨2, ?_⟩
      show drive _ 2 ⟨[], events, .await (.nextHead none true)⟩ = ⟨[], events ++ [], _⟩
      rw [drive_empty events hpos, List.append_nil]
      rfl
  | cons last rest ih =>
      intro hlinked hdetermines hlast events found _
      have hlt : last.number + 2 < C.head := hlast last rfl
      cases hhas : C.has last with
      | true =>
          -- the whole window is on the chain
          obtain ⟨hcommon, hothers, hmissing⟩ :=
            RpcChain.whole_of_has hlinked hdetermines hhas
          have hrun : drive (C.answer evmLib) (2 * (C.head - 2 - last.number) + 1)
                ⟨C.blockAt last.number :: rest, events,
                  .await (.nextHead (some (C.blockAt last.number)) found)⟩
              = ⟨(C.above last.number).reverse ++ C.blockAt last.number :: rest,
                  events ++ (C.above last.number).map .appended,
                  afterLoop ((C.above last.number).reverse
                    ++ C.blockAt last.number :: rest) true⟩ :=
            drive_extend evmLib _ _ found rest events (by omega) (Or.inr (by omega))
          rw [← (RpcChain.has_iff.mp hhas).2] at hrun
          refine ⟨_, hrun.trans ?_⟩
          rw [RpcChain.converged, RpcChain.changes, hmissing, hcommon, hothers]
          rfl
      | false =>
          obtain ⟨hcommon, hothers⟩ := RpcChain.common_cons_of_not rest hhas
          have hparent := RpcChain.parentHash_ne hdetermines hhas (by omega)
          obtain ⟨n, hrun⟩ := ih hlinked.tail
            (fun b hb => hdetermines b (List.mem_cons_of_mem _ hb))
            (by
              intro below hbelow
              obtain ⟨rest', rfl⟩ := List.head?_eq_some_iff.mp hbelow
              obtain ⟨-, hnumber⟩ := (List.isChain_cons_cons.mp hlinked).1
              omega)
            (events ++ [.forked last]) true (Or.inr rfl)
          have hmissing : C.missing (last :: rest) = C.missing rest := by
            rw [RpcChain.missing, RpcChain.missing, hcommon]
          refine ⟨2 + n, ?_⟩
          show drive _ _ ⟨last :: rest, events, .await (.nextHead (some last) found)⟩ = _
          rw [drive_add, drive_next events hlt, if_neg hparent, hrun, RpcChain.converged,
            RpcChain.converged, RpcChain.changes, RpcChain.changes, hmissing, hcommon,
            hothers, List.map_cons, List.append_assoc]
          rfl

/-! ## Pruning -/

/-- Only blocks below the last irreversible one are removed. -/
theorem removeFrontBlocks_below (evmLib fuel : Nat) (window : List Block) :
    ∀ block, .removed block ∈ (removeFrontBlocks evmLib fuel window).2 →
      block.number < evmLib := by
  induction fuel generalizing window with
  | zero => rintro block ⟨⟩
  | succ fuel ih =>
      intro block hblock
      rw [removeFrontBlocks] at hblock
      cases hlast : window.getLast? with
      | none =>
          simp only [hlast] at hblock
          cases hblock
      | some front =>
          simp only [hlast] at hblock
          split at hblock
          · next hcond =>
              rcases List.mem_cons.mp hblock with heq | hmem
              · rw [BlockEvent.removed.inj heq]
                exact hcond.2
              · exact ih _ block hmem
          · cases hblock

/-- 180 blocks are kept. -/
theorem removeFrontBlocks_length (evmLib fuel : Nat) (window : List Block)
    (h : 180 ≤ window.length) : 180 ≤ (removeFrontBlocks evmLib fuel window).1.length := by
  induction fuel generalizing window with
  | zero => exact h
  | succ fuel ih =>
      rw [removeFrontBlocks]
      cases hlast : window.getLast? with
      | none => exact h
      | some front =>
          simp only
          split
          · next hcond =>
              refine ih window.dropLast ?_
              rw [List.length_dropLast]
              omega
          · exact h

/-- The end of a poll: the window is pruned, or left as it is. -/
theorem drive_prune (C : RpcChain) (evmLib : Nat) (window : List Block)
    (events : List BlockEvent) :
    ∃ kept dropped, window = kept ++ dropped ∧
      drive (C.answer evmLib) 2 ⟨window, events, afterLoop window true⟩
        = ⟨kept, events ++ dropped.reverse.map .removed, .done⟩ ∧
      (∀ block ∈ dropped, block.number < evmLib) ∧
      (180 ≤ window.length → 180 ≤ kept.length) := by
  by_cases hlong : window.length > 180 + 6
  · obtain ⟨dropped, hwindow, hevents⟩ :=
      removeFrontBlocks_spec evmLib window.length window
    refine ⟨_, dropped, hwindow, ?_, ?_, removeFrontBlocks_length evmLib _ window⟩
    · have hinfo : resume window .info (C.answer evmLib .info)
          = ⟨window, [], .await .libBlock⟩ := rfl
      have hlib : resume window .libBlock (C.answer evmLib .libBlock)
          = ⟨(removeFrontBlocks evmLib window.length window).1,
              (removeFrontBlocks evmLib window.length window).2, .done⟩ := rfl
      rw [afterLoop, if_pos ⟨rfl, hlong⟩, drive_await 1 events hinfo,
        drive_await 0 _ hlib, drive, List.append_nil, hevents]
    · intro block hblock
      refine removeFrontBlocks_below evmLib window.length window block ?_
      rw [hevents]
      exact List.mem_map_of_mem (List.mem_reverse.mpr hblock)
  · refine ⟨window, [], (List.append_nil _).symm, ?_, by rintro block ⟨⟩, id⟩
    rw [afterLoop, if_neg (fun h => hlong h.2), drive_done, List.reverse_nil, List.map_nil,
      List.append_nil]

end Converging

/-- **An undisturbed poll converges to the chain** of the RPC and ends.  After `n`
    answers its loop is over, with the common part extended and the changes emitted;
    two more prune the window. -/
theorem poll_converges (C : RpcChain) (evmLib : Nat) {window : List Block}
    (hne : window ≠ []) (hlinked : Linked window) (hdetermines : C.Determines window)
    (hlast : ∀ last ∈ window.head?, last.number + 1 < C.head - 1) :
    ∃ n, drive (C.answer evmLib) n ⟨window, [], .await (startPoll window)⟩
        = ⟨C.converged window, C.changes window, afterLoop (C.converged window) true⟩ ∧
      ∃ kept dropped, C.converged window = kept ++ dropped ∧
        drive (C.answer evmLib) (n + 2) ⟨window, [], .await (startPoll window)⟩
          = ⟨kept, C.changes window ++ dropped.reverse.map .removed, .done⟩ ∧
        (∀ block ∈ dropped, block.number < evmLib) ∧
        (180 ≤ (C.converged window).length → 180 ≤ kept.length) := by
  obtain ⟨last, rest, rfl⟩ := List.exists_cons_of_ne_nil hne
  have hlt : last.number + 1 < C.head - 1 := hlast last rfl
  obtain ⟨n, hrun⟩ := drive_unwind evmLib (by omega) hlinked hdetermines
    (by
      intro x hx
      have := hlast x hx
      omega) [] false (Or.inl hne)
  rw [List.nil_append] at hrun
  obtain ⟨kept, dropped, hsplit, hprune, hbelow, hlength⟩ :=
    drive_prune C evmLib (C.converged (last :: rest)) (C.changes (last :: rest))
  refine ⟨n, hrun, kept, dropped, hsplit, ?_, hbelow, hlength⟩
  rw [drive_add]
  exact (congrArg _ hrun).trans hprune

/-! ## A short chain -/

/-- The hash of block `k` of the short chain. -/
def plainHash (k : Nat) : String :=
  String.ofList (List.replicate (k + 1) 'h')

/-- Thirteen blocks on top of each other. -/
def plainChain : RpcChain where
  head := 12
  blockAt := fun k => plainBlock k (plainHash k) (plainHash (k - 1))
  numbered := fun _ _ => rfl
  linked := fun _ _ => rfl
  logged := by
    intro k _ log hlog
    rw [List.mem_singleton.mp hlog]
    refine ⟨?_, rfl⟩
    intro hempty
    have hlength : (plainHash k).length = 0 := by
      rw [show plainHash k = "" from hempty]
      rfl
    simp [plainHash] at hlength

/-- Blocks 6 to 8, the last of which is on another chain. -/
def plainForkedWindow : List Block :=
  [plainBlock 8 "f" (plainHash 7), plainBlock 7 (plainHash 7) (plainHash 6),
    plainBlock 6 (plainHash 6) (plainHash 5)]

theorem poll_converges_plainForkedWindow :
    ∃ n, drive (plainChain.answer 3) n
        ⟨plainForkedWindow, [], .await (startPoll plainForkedWindow)⟩
      = ⟨[plainChain.blockAt 10, plainChain.blockAt 9, plainChain.blockAt 8,
            plainChain.blockAt 7, plainChain.blockAt 6],
          [.forked (plainBlock 8 "f" (plainHash 7)), .appended (plainChain.blockAt 8),
            .appended (plainChain.blockAt 9), .appended (plainChain.blockAt 10)],
          .done⟩ := by
  have hne : plainForkedWindow ≠ [] := List.cons_ne_nil _ _
  have hdetermines : plainChain.Determines plainForkedWindow := by
    show ∀ block ∈ plainForkedWindow, ∀ k ≤ 12,
      block.hash = plainHash k → block = plainBlock k (plainHash k) (plainHash (k - 1))
    decide +kernel
  obtain ⟨n, hrun, -⟩ := poll_converges plainChain 3 hne (by decide +kernel)
    hdetermines (by decide)
  exact ⟨n, hrun.trans (by decide +kernel)⟩

end WsProxy
