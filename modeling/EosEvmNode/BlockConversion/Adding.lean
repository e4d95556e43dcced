import EosEvmNode.BlockConversion.Extending

/-! # Adding a native block — execution parameters and transactions

    An accepted native block appends its decoded transactions to the EVM block
    it belongs to and moves that block's execution parameters (version nonce,
    base fee, gas prices, consensus parameter index) in a way that depends on
    the parameters and on the native block alone: `Params.afterNative`.

    Once an EVM block holds a transaction its parameters are settled: every
    action whose transaction it holds agrees with them (`UniformAction`). -/

namespace BlockConversion

open Channels Silkworm Engine Runs

variable {Tx : Type}

/-! ## Execution parameters -/

/-- The fields of an EVM block that configure its execution. -/
structure Params where
  nonce : Nonce
  baseFeePerGas : Option Nat
  gasPrices : Option GasPrices
  consensusParameterIndex : Option Bytes32
  deriving DecidableEq, Repr

def Params.of (e : Block Tx) : Params where
  nonce := e.header.nonce
  baseFeePerGas := e.header.baseFeePerGas
  gasPrices := e.gasPrices
  consensusParameterIndex := e.consensusParameterIndex

/-- The same block with other parameters. -/
def Params.set (p : Params) (e : Block Tx) : Block Tx :=
  { e with
    header := { e.header with nonce := p.nonce, baseFeePerGas := p.baseFeePerGas }
    gasPrices := p.gasPrices
    consensusParameterIndex := p.consensusParameterIndex }

@[simp] theorem Params.of_set (p : Params) (e : Block Tx) :
    Params.of (p.set e) = p := rfl

@[simp] theorem Params.set_of (e : Block Tx) : (Params.of e).set e = e := rfl

@[simp] theorem Params.set_number (p : Params) (e : Block Tx) :
    (p.set e).header.number = e.header.number := rfl

@[simp] theorem Params.set_parentHash (p : Params) (e : Block Tx) :
    (p.set e).header.parentHash = e.header.parentHash := rfl

@[simp] theorem Params.set_transactions (p : Params) (e : Block Tx) :
    (p.set e).transactions = e.transactions := rfl

/-- The EVM version a nonce stands for. -/
def Params.version (E : Env Tx) (p : Params) : UInt64 :=
  E.libs.nonceToVersion p.nonce

/-- An action of a higher version raises the version. -/
def Params.raise (E : Env Tx) (p : Params) (dtx : EvmTx) : Params :=
  if p.version E < dtx.eosEvmVersion then
    { p with nonce := E.libs.versionToNonce dtx.eosEvmVersion }
  else p

/-- The fees an action brings: a base fee in versions 1 and 2, gas prices from
    version 3 on. -/
def Params.charge (E : Env Tx) (p : Params) : EvmTx → Params
  | .v1 version _ txBaseFee =>
      if 1 ≤ version ∧ version < 3 then
        { p with baseFeePerGas := some txBaseFee.toNat }
      else p
  | .v3 version _ overheadPrice storagePrice =>
      if 3 ≤ version then
        let fee := E.libs.calculateBaseFeePerGas overheadPrice storagePrice
        { p with
          gasPrices := some ⟨overheadPrice, storagePrice⟩
          baseFeePerGas := some fee.toNat }
      else p

/-- The parameters after an accepted action. -/
def Params.afterTx (E : Env Tx) (p : Params) (dtx : EvmTx) : Params :=
  (p.raise E dtx).charge E dtx

/-- The parameters after an accepted list of actions. -/
def Params.afterActions (E : Env Tx) (p : Params) (acts : List NativeAction) :
    Params :=
  acts.foldl (fun p act =>
    match deserializeTx E act with
    | .ok dtx => p.afterTx E dtx
    | .error _ => p) p

def consensusParametersOf (config : ConsensusParameterData) :
    ConsensusParameters :=
  { gasFeeParameters := {
      gasTxnewaccount := config.gasTxnewaccount
      gasNewaccount := config.gasNewaccount
      gasTxcreate := config.gasTxcreate
      gasCodedeposit := config.gasCodedeposit
      gasSset := config.gasSset } }

/-- The parameters after the configuration change of a block, if it has one. -/
def Params.afterConfig (E : Env Tx) (p : Params) (b : NativeBlock) : Params :=
  match b.newConfig with
  | none => p
  | some na =>
      match deserializeConfig E na with
      | .ok config =>
          let index := E.libs.consensusHash (consensusParametersOf config)
          { p with consensusParameterIndex := some index }
      | .error _ => p

/-- The parameters after an accepted native block. -/
def Params.afterNative (E : Env Tx) (p : Params) (b : NativeBlock) : Params :=
  (p.afterConfig E b).afterActions E b.actions

/-! ## The checks of one action -/

/-- A change that is made only to an empty block was made to an empty block. -/
theorem ok_of_isEmpty {α : Type} {txs : List Tx} {x y : α} {err : Failure}
    (h : (if txs.isEmpty then Except.ok x else .error err) = .ok y) :
    txs = [] ∧ x = y := by
  by_cases hemp : txs.isEmpty
  · rw [if_pos hemp] at h
    exact ⟨List.isEmpty_iff.mp hemp, Except.ok.inj h⟩
  · rw [if_neg hemp] at h
    cases h

/-- A version below the block's is rejected; a higher one only passes, and then
    becomes the block's, while the block is empty. -/
theorem applyVersion_ok {E : Env Tx} {curr c : Block Tx} {v v' : UInt64}
    {dtx : EvmTx} (h : applyVersion E curr v dtx = .ok (c, v')) :
    v' = dtx.eosEvmVersion ∧
      ((v = dtx.eosEvmVersion ∧ c = curr) ∨
       (v < dtx.eosEvmVersion ∧ curr.transactions = [] ∧
        c = { curr with header := { curr.header with
          nonce := E.libs.versionToNonce dtx.eosEvmVersion } })) := by
  rw [applyVersion] at h
  by_cases hlt : dtx.eosEvmVersion < v
  · simp only [if_pos hlt] at h
    cases h
  · simp only [if_neg hlt] at h
    by_cases hgt : v < dtx.eosEvmVersion
    · simp only [if_pos hgt] at h
      obtain ⟨hempty, hc⟩ := ok_of_isEmpty h
      obtain ⟨hc, hv⟩ := Prod.mk.inj hc
      exact ⟨hv.symm, Or.inr ⟨hgt, hempty, hc.symm⟩⟩
    · simp only [if_neg hgt] at h
      obtain ⟨hc, hv⟩ := Prod.mk.inj (Except.ok.inj h)
      have heq : v = dtx.eosEvmVersion :=
        UInt64.le_antisymm (UInt64.not_lt.mp hlt) (UInt64.not_lt.mp hgt)
      exact ⟨hv ▸ heq, Or.inl ⟨heq, hc.symm⟩⟩

/-- From version 3 on the block takes the gas prices of the action and the base
    fee computed from them; a block with transactions has those prices already. -/
theorem applyGasPrices_ok {E : Env Tx} {curr c : Block Tx} {v : UInt64}
    {dtx : EvmTx} (h : applyGasPrices E curr v dtx = .ok c) :
    (¬ 3 ≤ v ∧ c = curr) ∨
    (3 ≤ v ∧ ∃ version rlpx o p, dtx = .v3 version rlpx o p ∧
      c = { curr with
        header := { curr.header with
          baseFeePerGas := some (E.libs.calculateBaseFeePerGas o p).toNat }
        gasPrices := some ⟨o, p⟩ } ∧
      (curr.transactions ≠ [] → ∀ q ∈ curr.gasPrices, q = ⟨o, p⟩)) := by
  unfold applyGasPrices at h
  by_cases hv : 3 ≤ v
  · rw [if_pos hv] at h
    refine Or.inr ⟨hv, ?_⟩
    cases dtx with
    | v1 version rlpx f => cases h
    | v3 version rlpx o p =>
        refine ⟨version, rlpx, o, p, rfl, ?_⟩
        cases hq : curr.gasPrices with
        | none =>
            simp only [hq] at h
            refine ⟨(Except.ok.inj h).symm, ?_⟩
            intro _ q hmem
            cases hmem
        | some q =>
            simp only [hq] at h
            by_cases hne : q ≠ ⟨o, p⟩
            · rw [if_pos hne] at h
              obtain ⟨hempty, hc⟩ := ok_of_isEmpty h
              exact ⟨hc.symm, fun htx => absurd hempty htx⟩
            · rw [if_neg hne] at h
              have heq : q = ⟨o, p⟩ := not_not.mp hne
              refine ⟨?_, ?_⟩
              · rw [← Except.ok.inj h, ← heq, ← hq]
              · intro _ x hx
                have hxq : q = x := Option.some.inj hx
                exact hxq ▸ heq
  · rw [if_neg hv] at h
    exact Or.inl ⟨hv, (Except.ok.inj h).symm⟩

/-- In versions 1 and 2 the block takes the base fee of the action; a block with
    transactions has that base fee already. -/
theorem applyBaseFee_ok {curr c : Block Tx} {v : UInt64} {dtx : EvmTx}
    (h : applyBaseFee curr v dtx = .ok c) :
    (¬ (1 ≤ v ∧ v < 3) ∧ c = curr) ∨
    ((1 ≤ v ∧ v < 3) ∧ ∃ version rlpx f, dtx = .v1 version rlpx f ∧
      c = { curr with header := { curr.header with
        baseFeePerGas := some f.toNat } } ∧
      (curr.transactions ≠ [] →
        ∀ x ∈ curr.header.baseFeePerGas, x = f.toNat)) := by
  unfold applyBaseFee at h
  by_cases hv : 1 ≤ v ∧ v < 3
  · rw [if_pos hv] at h
    refine Or.inr ⟨hv, ?_⟩
    cases dtx with
    | v3 version rlpx o p => cases h
    | v1 version rlpx f =>
        refine ⟨version, rlpx, f, rfl, ?_⟩
        cases hx : curr.header.baseFeePerGas with
        | none =>
            simp only [hx] at h
            refine ⟨(Except.ok.inj h).symm, ?_⟩
            intro _ x hmem
            cases hmem
        | some x =>
            simp only [hx] at h
            by_cases hne : x ≠ f.toNat
            · rw [if_pos hne] at h
              obtain ⟨hempty, hc⟩ := ok_of_isEmpty h
              exact ⟨hc.symm, fun htx => absurd hempty htx⟩
            · rw [if_neg hne] at h
              have heq : x = f.toNat := not_not.mp hne
              refine ⟨?_, ?_⟩
              · rw [← Except.ok.inj h, ← heq, ← hx]
              · intro _ y hy
                have hxy : x = y := Option.some.inj hy
                exact hxy ▸ heq
  · rw [if_neg hv] at h
    exact Or.inl ⟨hv, (Except.ok.inj h).symm⟩

/-! ## One action -/

/-- An action agrees with the parameters of the block that holds its
    transaction. -/
structure UniformTx (E : Env Tx) (p : Params) (dtx : EvmTx) : Prop where
  version : dtx.eosEvmVersion = p.version E
  baseFee : 1 ≤ p.version E ∧ p.version E < 3 →
    ∃ version rlpx f, dtx = .v1 version rlpx f ∧
      p.baseFeePerGas = some f.toNat
  gasPrices : 3 ≤ p.version E →
    ∃ version rlpx o s, dtx = .v3 version rlpx o s ∧
      p.gasPrices = some ⟨o, s⟩ ∧
      p.baseFeePerGas = some (E.libs.calculateBaseFeePerGas o s).toNat

def UniformAction (E : Env Tx) (p : Params) (act : NativeAction) : Prop :=
  ∃ dtx, deserializeTx E act = .ok dtx ∧ UniformTx E p dtx

/-- What an accepted action did to the current block. -/
structure Added (E : Env Tx) (curr : Block Tx) (act : NativeAction)
    (curr' : Block Tx) (dtx : EvmTx) (tx : Tx) : Prop where
  payload : deserializeTx E act = .ok dtx
  decoded : E.libs.decodeTransaction dtx.rlpx = some tx
  result : curr' = { ((Params.of curr).afterTx E dtx).set curr with
    transactions := curr.transactions ++ [tx] }
  version_le : (Params.of curr).version E ≤ dtx.eosEvmVersion
  version : (Params.of curr').version E = dtx.eosEvmVersion
  /-- The action agrees with the block it was added to. -/
  uniform : UniformTx E (Params.of curr') dtx
  /-- A block with transactions keeps whatever its actions agree with. -/
  keeps : curr.transactions ≠ [] → ∀ dtx₀, UniformTx E (Params.of curr) dtx₀ →
    UniformTx E (Params.of curr') dtx₀

theorem decodedTx_of_added {E : Env Tx} {curr curr' : Block Tx}
    {act : NativeAction} {dtx : EvmTx} {tx : Tx}
    (h : Added E curr act curr' dtx tx) : decodedTx E act = some tx := by
  rw [decodedTx, h.payload]
  exact h.decoded

/-- The version the first check leaves in the nonce. -/
theorem applyVersion_params {E : Env Tx} (hX : E.libs.Lawful)
    {curr c : Block Tx} {v v' : UInt64} {dtx : EvmTx}
    (hv : (Params.of curr).version E = v)
    (h : applyVersion E curr v dtx = .ok (c, v')) :
    v' = dtx.eosEvmVersion ∧ (Params.of c).version E = dtx.eosEvmVersion ∧
      v ≤ dtx.eosEvmVersion ∧ c = ((Params.of curr).raise E dtx).set curr ∧
      (curr.transactions ≠ [] → c = curr) := by
  obtain ⟨hv', ⟨heq, hc⟩ | ⟨hlt, hemp, hc⟩⟩ := applyVersion_ok h
  · subst hc
    refine ⟨hv', hv.trans heq, heq ▸ UInt64.le_refl v, ?_, fun _ => rfl⟩
    rw [Params.raise, if_neg (by rw [hv, heq]; exact UInt64.lt_irrefl _)]
    rfl
  · subst hc
    refine ⟨hv', hX.nonce_version _, UInt64.le_of_lt hlt, ?_,
      fun hne => absurd hemp hne⟩
    rw [Params.raise, if_pos (by rw [hv]; exact hlt)]
    rfl

/-- The fees of an action of the block's version: what the two checks leave,
    and that a block with transactions has these fees already. -/
theorem applyFees_ok {E : Env Tx} {c₁ c₂ c₃ : Block Tx} {dtx : EvmTx}
    (hver : (Params.of c₁).version E = dtx.eosEvmVersion)
    (h₂ : applyGasPrices E c₁ dtx.eosEvmVersion dtx = .ok c₂)
    (h₃ : applyBaseFee c₂ dtx.eosEvmVersion dtx = .ok c₃) :
    c₃ = ((Params.of c₁).charge E dtx).set c₁ ∧
      UniformTx E ((Params.of c₁).charge E dtx) dtx ∧
      (c₁.transactions ≠ [] → ∀ dtx₀, UniformTx E (Params.of c₁) dtx₀ →
        (Params.of c₁).charge E dtx = Params.of c₁) := by
  cases dtx with
  | v1 version rlpx f =>
      have hver : (Params.of c₁).version E = version := hver
      have hprices : ¬ 3 ≤ version ∧ c₂ = c₁ := by
        rcases applyGasPrices_ok h₂ with hno | ⟨-, _, _, _, _, hd, -⟩
        · exact hno
        · cases hd
      obtain ⟨hlt3, hc₂⟩ := hprices
      subst hc₂
      have h3 : ∀ p : Params, p.version E = version → ¬ 3 ≤ p.version E :=
        fun p hp hle => hlt3 (hp ▸ hle)
      rcases applyBaseFee_ok h₃ with ⟨hno, hc₃⟩ | ⟨hyes, _, _, _, hd, hc₃, hold⟩
      · -- version 0: the block takes nothing from the action
        have hsame : (Params.of c₂).charge E (.v1 version rlpx f)
            = Params.of c₂ := if_neg hno
        rw [hsame]
        refine ⟨hc₃, ⟨hver.symm, ?_, ?_⟩, fun _ _ _ => rfl⟩
        · intro h13
          rw [hver] at h13
          exact absurd h13 hno
        · intro hle
          exact absurd hle (h3 _ hver)
      · -- versions 1 and 2: the base fee
        obtain ⟨rfl, rfl, rfl⟩ := EvmTx.v1.inj hd
        have hnew : (Params.of c₂).charge E (.v1 version rlpx f)
            = { Params.of c₂ with baseFeePerGas := some f.toNat } := if_pos hyes
        rw [hnew]
        refine ⟨hc₃, ⟨hver.symm, ?_, ?_⟩, ?_⟩
        · intro _
          exact ⟨version, rlpx, f, rfl, rfl⟩
        · intro hle
          exact absurd hle (h3 _ hver)
        · intro hne dtx₀ hu
          obtain ⟨_, _, g, -, hfee⟩ := hu.baseFee (hver.symm ▸ hyes)
          have hfg : g.toNat = f.toNat := hold hne g.toNat hfee
          rw [← hfg, ← hfee]
  | v3 version rlpx o p =>
      have hver : (Params.of c₁).version E = version := hver
      have hfee : ¬ (1 ≤ version ∧ version < 3) ∧ c₃ = c₂ := by
        rcases applyBaseFee_ok h₃ with hno | ⟨-, _, _, _, hd, -⟩
        · exact hno
        · cases hd
      obtain ⟨hno, hc₃⟩ := hfee
      subst hc₃
      have h13 : ∀ q : Params, q.version E = version →
          ¬ (1 ≤ q.version E ∧ q.version E < 3) :=
        fun q hq hle => hno (hq ▸ hle)
      rcases applyGasPrices_ok h₂ with
        ⟨hlt3, hc₂⟩ | ⟨h3, _, _, _, _, hd, hc₂, hold⟩
      · have hsame : (Params.of c₁).charge E (.v3 version rlpx o p)
            = Params.of c₁ := if_neg hlt3
        rw [hsame]
        refine ⟨hc₂, ⟨hver.symm, ?_, ?_⟩, fun _ _ _ => rfl⟩
        · intro hle
          exact absurd hle (h13 _ hver)
        · intro hle
          rw [hver] at hle
          exact absurd hle hlt3
      · -- version 3 on: gas prices and the fee computed from them
        obtain ⟨rfl, rfl, rfl, rfl⟩ := EvmTx.v3.inj hd
        have hnew : (Params.of c₁).charge E (.v3 version rlpx o p)
            = { Params.of c₁ with
                gasPrices := some ⟨o, p⟩
                baseFeePerGas :=
                  some (E.libs.calculateBaseFeePerGas o p).toNat } := if_pos h3
        rw [hnew]
        refine ⟨hc₂, ⟨hver.symm, ?_, ?_⟩, ?_⟩
        · intro hle
          exact absurd hle (h13 _ hver)
        · intro _
          exact ⟨version, rlpx, o, p, rfl, rfl, rfl⟩
        · intro hne dtx₀ hu
          obtain ⟨_, _, o', p', -, hq, hbf⟩ := hu.gasPrices (hver.symm ▸ h3)
          have heq : (⟨o', p'⟩ : GasPrices) = ⟨o, p⟩ := hold hne ⟨o', p'⟩ hq
          obtain ⟨rfl, rfl⟩ := GasPrices.mk.inj heq
          rw [← hq, ← hbf]

/-- **One accepted action**: it appends its transaction and moves the
    parameters as `Params.afterTx` says. -/
theorem addTransaction_ok {E : Env Tx} (hX : E.libs.Lawful)
    {curr curr' : Block Tx} {v v' : UInt64} {act : NativeAction}
    (hv : (Params.of curr).version E = v)
    (h : addTransaction E (curr, v) act = .ok (curr', v')) :
    (Params.of curr').version E = v' ∧
      ∃ dtx tx, Added E curr act curr' dtx tx := by
  -- the version first, then the two fee checks, then the transaction
  obtain ⟨dtx, hdtx, h⟩ := bind_ok h
  obtain ⟨⟨c₁, v₁⟩, h₁, h⟩ := bind_ok h
  obtain ⟨c₂, h₂, h⟩ := bind_ok h
  cases htx : E.libs.decodeTransaction dtx.rlpx with
  | none => simp only [htx] at h; cases h
  | some tx =>
      simp only [htx] at h
      obtain ⟨c₃, h₃, h⟩ := bind_ok h
      obtain ⟨hcurr', hv'⟩ := Prod.mk.inj (Except.ok.inj h)
      obtain ⟨hv₁, hver, hle, hc₁, hkeep⟩ := applyVersion_params hX hv h₁
      subst hv₁
      obtain ⟨hc₃, hu, hsame⟩ := applyFees_ok hver h₂ h₃
      have hraise : Params.of c₁ = (Params.of curr).raise E dtx := by
        rw [hc₁]
        rfl
      have hpar : Params.of curr' = (Params.of c₁).charge E dtx := by
        rw [← hcurr', hc₃]
        rfl
      have hres : curr' = { ((Params.of curr).afterTx E dtx).set curr with
          transactions := curr.transactions ++ [tx] } := by
        rw [← hcurr', hc₃, hraise, ← Params.afterTx, hc₁]
        rfl
      have hver' : (Params.of curr').version E = dtx.eosEvmVersion := by
        rw [hpar]
        exact hu.version.symm
      refine ⟨hver'.trans hv', dtx, tx, hdtx, htx, hres, hv ▸ hle, hver', ?_, ?_⟩
      · rw [hpar]
        exact hu
      · intro hne dtx₀ hu₀
        have hc : c₁ = curr := hkeep hne
        subst hc
        rw [hpar, hsame hne dtx₀ hu₀]
        exact hu₀

/-! ## A whole native block -/

/-- What an accepted list of actions, or an accepted native block, did to the
    current block. -/
structure AddedAll (E : Env Tx) (curr : Block Tx) (acts : List NativeAction)
    (p : Params) (txs : List Tx) : Prop where
  decoded : acts.map (decodedTx E) = txs.map some
  version_le : (Params.of curr).version E ≤ p.version E
  uniform : ∀ act ∈ acts, UniformAction E p act
  keeps : curr.transactions ≠ [] → ∀ act, UniformAction E (Params.of curr) act →
    UniformAction E p act

/-- **The action loop**, by induction over the actions. -/
theorem addTransactions_ok {E : Env Tx} (hX : E.libs.Lawful) :
    ∀ {acts : List NativeAction} {curr curr' : Block Tx} {v v' : UInt64},
      (Params.of curr).version E = v →
      acts.foldlM (addTransaction E) (curr, v) = .ok (curr', v') →
      ∃ txs, AddedAll E curr acts (Params.of curr') txs ∧
        curr' = { ((Params.of curr).afterActions E acts).set curr with
          transactions := curr.transactions ++ txs } := by
  intro acts
  induction acts with
  | nil =>
      intro curr curr' v v' _ h
      obtain ⟨rfl, -⟩ := Prod.mk.inj (Except.ok.inj h)
      refine ⟨[], ⟨rfl, UInt64.le_refl _, ?_, fun _ _ hu => hu⟩, ?_⟩
      · intro act hact
        cases hact
      · rw [List.append_nil]
        rfl
  | cons act acts ih =>
      intro curr curr' v v' hv h
      rw [List.foldlM_cons] at h
      obtain ⟨⟨c, w⟩, h₁, h⟩ := bind_ok h
      obtain ⟨hw, dtx, tx, hadd⟩ := addTransaction_ok hX hv h₁
      obtain ⟨txs, hall, hres⟩ := ih hw h
      -- after one action the block is no longer empty, so its parameters stay
      have hne : c.transactions ≠ [] := by
        rw [hadd.result]
        exact List.append_ne_nil_of_right_ne_nil _ (List.cons_ne_nil _ _)
      have hpar : (Params.of curr).afterActions E (act :: acts)
          = (Params.of c).afterActions E acts := by
        rw [Params.afterActions, List.foldl_cons, ← Params.afterActions,
          hadd.payload, hadd.result]
        rfl
      refine ⟨tx :: txs, ⟨?_, ?_, ?_, ?_⟩, ?_⟩
      · rw [List.map_cons, decodedTx_of_added hadd, hall.decoded, List.map_cons]
      · refine UInt64.le_trans ?_ hall.version_le
        rw [hadd.version]
        exact hadd.version_le
      · intro a ha
        rcases List.mem_cons.mp ha with rfl | hmem
        · exact hall.keeps hne a ⟨dtx, hadd.payload, hadd.uniform⟩
        · exact hall.uniform a hmem
      · rintro htx a ⟨dtx₀, hd₀, hu₀⟩
        exact hall.keeps hne a ⟨dtx₀, hd₀, hadd.keeps htx dtx₀ hu₀⟩
      · rw [hres, hpar, hadd.result]
        show Block.mk _ _ _ _ _ = Block.mk _ _ _ _ _
        rw [List.append_assoc]
        rfl

/-- A configuration change goes into an empty block. -/
theorem applyNewConfig_ok {E : Env Tx} {curr c : Block Tx} {b : NativeBlock}
    {written : List (Bytes32 × ConsensusParameters)}
    (h : applyNewConfig E curr b = .ok (c, written)) :
    c = ((Params.of curr).afterConfig E b).set curr ∧
      (b.newConfig.isSome → curr.transactions = []) := by
  unfold applyNewConfig at h
  cases hcfg : b.newConfig with
  | none =>
      simp only [hcfg] at h
      obtain ⟨hc, -⟩ := Prod.mk.inj (Except.ok.inj h)
      rw [Params.afterConfig, hcfg]
      exact ⟨hc.symm, fun hsome => by cases hsome⟩
  | some na =>
      simp only [hcfg] at h
      cases hemp : curr.transactions.isEmpty with
      | false => rw [hemp] at h; cases h
      | true =>
          rw [hemp] at h
          obtain ⟨config, hconfig, h⟩ := bind_ok h
          obtain ⟨hc, -⟩ := Prod.mk.inj (Except.ok.inj h)
          rw [Params.afterConfig, hcfg]
          simp only [hconfig]
          exact ⟨hc.symm, fun _ => List.isEmpty_iff.mp hemp⟩

/-- **One accepted native block**: its transactions are appended, the
    parameters move as `Params.afterNative` says, and the upper bound becomes
    the native block. -/
theorem addNativeBlock_ok {E : Env Tx} (hX : E.libs.Lawful)
    {curr curr' : Block Tx} {b : NativeBlock}
    {written : List (Bytes32 × ConsensusParameters)}
    (h : addNativeBlock E curr b = .ok (curr', written)) :
    ∃ txs, AddedAll E curr b.actions ((Params.of curr).afterNative E b) txs ∧
      curr' = setUpperBound { ((Params.of curr).afterNative E b).set curr with
        transactions := curr.transactions ++ txs } b ∧
      (b.newConfig.isSome → curr.transactions = []) := by
  obtain ⟨⟨c, w⟩, hcfg, h⟩ := bind_ok h
  obtain ⟨⟨c', v'⟩, hacts, h⟩ := bind_ok h
  obtain ⟨hcurr', -⟩ := Prod.mk.inj (Except.ok.inj h)
  obtain ⟨hc, hempty⟩ := applyNewConfig_ok hcfg
  have hver : (Params.of c).version E = (Params.of curr).version E := by
    rw [hc, Params.of_set, Params.version, Params.version, Params.afterConfig]
    cases b.newConfig with
    | none => rfl
    | some na => cases hd : deserializeConfig E na <;> simp only [hd]
  have hfees : (Params.of c).baseFeePerGas = (Params.of curr).baseFeePerGas
      ∧ (Params.of c).gasPrices = (Params.of curr).gasPrices := by
    rw [hc, Params.of_set, Params.afterConfig]
    cases b.newConfig with
    | none => exact ⟨rfl, rfl⟩
    | some na => cases hd : deserializeConfig E na <;> simp only [hd, and_self]
  have htx : c.transactions = curr.transactions := by rw [hc]; rfl
  obtain ⟨txs, hall, hres⟩ := addTransactions_ok hX hver hacts
  have hpar : Params.of c' = (Params.of curr).afterNative E b := by
    rw [hres, Params.afterNative, hc]
    rfl
  refine ⟨txs, ⟨hall.decoded, ?_, ?_, ?_⟩, ?_, hempty⟩
  · rw [← hver, ← hpar]
    exact hall.version_le
  · rw [← hpar]
    exact hall.uniform
  · intro hne act hu
    rw [← hpar]
    refine hall.keeps (by rw [htx]; exact hne) act ?_
    -- the configuration change left version, fee and prices alone
    obtain ⟨dtx, hdtx, hu⟩ := hu
    refine ⟨dtx, hdtx, ?_⟩
    refine ⟨hu.version.trans hver.symm, ?_, ?_⟩
    · rw [hver, hfees.1]
      exact hu.baseFee
    · rw [hver, hfees.1, hfees.2]
      exact hu.gasPrices
  · rw [← hcurr', hres, Params.afterNative, htx, hc]
    rfl

end BlockConversion
