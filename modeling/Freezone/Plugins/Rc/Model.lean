import Freezone.Chain.Delegation.Manabar
import Freezone.Chain.Tokens.Model

/-!
# Resource credits

The objects of the plugin `rc` and the functions that change them: delegations of
accounts to pools (indel edges), of pools to accounts (outdel edges), the slots from
which an account draws, the charge for a transaction, and the visitors around the
operations that change vesting shares.

What the operations do to the vesting shares of accounts is a parameter here, and so
is the cost of a transaction. Only VESTS can be delegated, so that no key has a symbol.
Sums and differences of VESTS are not saturated: they stay below the total supply.
-/

namespace Freezone.Plugins.Rc

open Protocol (hundredPercent)
open Chain.Delegation (Manabar VestingAccount saturate)
open Chain.Funds (AccountName nullAccount uniqueness)
open Chain.Tokens (Phase sstHardfork)

/-- `freezone_RC_REGEN_TIME`. -/
def rcRegenTime : Nat := 60 * 60 * 24 * 5

/-- `freezone_RC_MAX_INDEL`. -/
def rcMaxIndel : Int := 40

/-- `freezone_RC_MAX_SLOTS`; slot 0 is the creator's, slot 1 that of the recovery account. -/
abbrev rcMaxSlots : Nat := 3

/-- `freezone_RC_MAX_NEGATIVE_PERCENT`. -/
def rcMaxNegativePercent : Int := 166

/-- An `account_name_type`: no name, the NAI of a token, or the name of an account. -/
inductive Name
  | empty
  | nai (symbol : Nat)
  | account (name : AccountName)
  deriving DecidableEq

/-- The order of the names. -/
def Name.before : Name → Name → Bool
  | .empty, .nai _ | .empty, .account _ | .nai _, .account _ => true
  | .nai s, .nai s' => s < s'
  | .account a, .account a' => a < a'
  | _, _ => false

/-- `validate_account_name`. -/
def Name.isAccount : Name → Bool
  | .account _ => true
  | _ => false

/-- `manabar::regenerate_mana< true >`, which does not cap the time. -/
def regenerateMana (m : Manabar) (maxMana : Int) (now : Nat) : Except String Manabar := do
  ensure (0 ≤ maxMana) "max_mana >= 0"
  ensure (m.lastUpdateTime ≤ now) "now >= last_update_time"
  if maxMana ≤ m.currentMana then .ok ⟨maxMana, now⟩
  else do
    let regen := maxMana * (now - m.lastUpdateTime : Nat) / rcRegenTime
    ensure (regen ≤ 2 ^ 63 - 1) "u_regen <= std::numeric_limits< int64_t >::max()"
    .ok ⟨min (saturate (m.currentMana + regen)) maxMana, now⟩

/-- `manabar::use_mana` with a lower bound. -/
def useManaDownTo (m : Manabar) (manaUsed minMana : Int) : Manabar :=
  { m with currentMana := max (saturate (m.currentMana - manaUsed)) minMana }

/-- What the plugin reads of an account. -/
structure Account extends VestingAccount where
  recoveryAccount : Name := .empty

/-- `rc_account_object`. -/
structure RcAccount where
  creator : Name
  rcManabar : Manabar
  maxRcCreationAdjustment : Int := 0
  vestsDelegatedToPools : Int := 0
  indelSlots : Fin rcMaxSlots → Name
  outDelegations : Int := 0
  lastMaxRc : Int := 0

/-- `rc_delegation_pool_object`. -/
structure Pool where
  rcPoolManabar : Manabar
  maxRc : Int

/-- The bar of a pool, regenerated if it is of an earlier block. -/
def Pool.restedBar (pool : Pool) (now : Nat) : Except String Manabar :=
  if pool.rcPoolManabar.lastUpdateTime < now then
    regenerateMana pool.rcPoolManabar pool.maxRc now
  else .ok pool.rcPoolManabar

/-- `rc_outdel_drc_edge_object`. -/
structure OutdelEdge where
  drcManabar : Manabar
  drcMaxMana : Int

/-- `rc_plugin_skip_flags`. -/
structure SkipFlags where
  rejectNotEnoughRc : Bool := false
  deductRc : Bool := false
  negativeRcBalance : Bool := false
  rejectUnknownDeltaVests : Bool := true

/-- `get_maximum_rc`. -/
def getMaximumRc (a : Account) (rca : RcAccount) : Int :=
  a.effectiveVestingShares + rca.maxRcCreationAdjustment - rca.vestsDelegatedToPools

/-- The objects of the plugin with what it reads of the database. An indel edge has the key of its
account and pool, an outdel edge that of its pool and account. -/
structure State where
  hardfork : Nat := sstHardfork
  time : Nat := 0
  producing : Bool := false
  skip : SkipFlags := {}
  topWitness : Name := .empty
  tokens : Nat → Option Phase := fun _ => none
  accounts : Table Name Account := Table.empty
  rcAccounts : Table Name RcAccount := Table.empty
  pools : Table Name Pool := Table.empty
  indels : Table (Name × Name) Int := Table.empty
  outdels : Table (Name × Name) OutdelEdge := Table.empty

namespace State

/-- `has_hardfork`. -/
def HasHardfork (S : State) (n : Nat) : Prop := n ≤ S.hardfork

instance (S : State) (n : Nat) : Decidable (S.HasHardfork n) :=
  inferInstanceAs (Decidable (n ≤ S.hardfork))

/-- `get` of an account. -/
def getAccount (S : State) (name : Name) : Except String Account :=
  orThrow "unknown key" (S.accounts.find? name)

/-- `get` of an `rc_account_object`. -/
def getRcAccount (S : State) (name : Name) : Except String RcAccount :=
  orThrow "unknown key" (S.rcAccounts.find? name)

/-- `get` of an `rc_delegation_pool_object`. -/
def getPool (S : State) (pool : Name) : Except String Pool :=
  orThrow "unknown key" (S.pools.find? pool)

def setRcAccount (name : Name) (rca : RcAccount) (S : State) : State :=
  { S with rcAccounts := S.rcAccounts.set name rca }

def setPool (name : Name) (pool : Pool) (S : State) : State :=
  { S with pools := S.pools.set name pool }

/-- `create_rc_account`, with the adjustment in VESTS. -/
def createRcAccount (name creator : Name) (adjustment : Int) (S : State) : Except String State := do
  let a ← S.getAccount name
  let maxRc := a.effectiveVestingShares + adjustment
  let rcAccounts ← orThrow uniqueness (S.rcAccounts.insert name {
    creator := creator
    rcManabar := ⟨maxRc, S.time⟩
    maxRcCreationAdjustment := adjustment
    indelSlots := ![creator, a.recoveryAccount, .account nullAccount]
    lastMaxRc := maxRc })
  .ok { S with rcAccounts := rcAccounts }

/-- The visitor of `SST_token_launch_action`. -/
def launchRcAccount (symbol : Nat) (controlAccount : Name) (S : State) : Except String State := do
  let rcAccounts ← orThrow uniqueness (S.rcAccounts.insert (.nai symbol) {
    creator := controlAccount
    rcManabar := ⟨0, S.time⟩
    indelSlots := ![.nai symbol, .account nullAccount, .account nullAccount] })
  .ok { S with rcAccounts := rcAccounts }

/-! ### The charge -/

/-- The bars of an edge and its pool that `use_account_rcs` reads for a slot. -/
def slotBars (S : State) (name pool : Name) : Except String (Option (Manabar × Manabar)) :=
  match S.outdels.find? (pool, name) with
  | none => .ok none
  | some edge => do
    let drcBar ← regenerateMana edge.drcManabar edge.drcMaxMana S.time
    let p ← S.getPool pool
    let poolBar ← regenerateMana p.rcPoolManabar p.maxRc S.time
    .ok (some (drcBar, poolBar))

/-- The first loop of `use_account_rcs`: the bars to write, and the mana that the pools of the
slots give. -/
def drawSlots (S : State) (name : Name) (rc : Int) :
    List Name → Int → Except String (List (Name × Manabar × Manabar) × Int)
  | [], total => .ok ([], total)
  | pool :: slots, total => do
    match ← S.slotBars name pool with
    | none => S.drawSlots name rc slots total
    | some (drcBar, poolBar) => do
      let consumed := min (min drcBar.currentMana poolBar.currentMana) (rc - total)
      let (draws, total) ← S.drawSlots name rc slots (total + consumed)
      .ok ((pool, drcBar.useMana consumed, poolBar.useMana consumed) :: draws, total)

/-- An iteration of the second loop of `use_account_rcs`. -/
def writeSlot (name : Name) (draw : Name × Manabar × Manabar) (S : State) : Except String State :=
  match S.outdels.find? (draw.1, name) with
  | none => .ok S
  | some edge => do
    let p ← S.getPool draw.1
    .ok { S with
      outdels := S.outdels.set (draw.1, name) { edge with drcManabar := draw.2.1 }
      pools := S.pools.set draw.1 { p with rcPoolManabar := draw.2.2 } }

/-- The maximum of an account's own bar. -/
def ownMaximum (S : State) (name : Name) (rca : RcAccount) : Except String Int :=
  match name with
  | .nai _ => .ok 0
  | _ => do
    let a ← S.getAccount name
    .ok (getMaximumRc a rca)

/-- How far below zero an account's own bar may go; the product is one of 64 bits. -/
def minMana (maxMana : Int) : Int :=
  ((-(rcMaxNegativePercent * maxMana)).bmod (2 ^ 64)).tdiv hundredPercent

/-- `use_account_rcs`. -/
def useAccountRcs (name : Name) (rc : Int) (S : State) : Except String State :=
  if name = .empty then do
    ensure (¬ S.producing) "Tried to execute transaction with no resource user"
    .ok S
  else do
    let rca ← S.getRcAccount name
    let (draws, delegated) ← S.drawSlots name rc (List.ofFn rca.indelSlots) 0
    let maxMana ← S.ownMaximum name rca
    let bar ← regenerateMana rca.rcManabar maxMana S.time
    let hasMana := decide (rc ≤ delegated + min bar.currentMana (rc - delegated))
    ensure (¬ S.skip.rejectNotEnoughRc ∧ S.HasHardfork 20 ∧ S.producing → hasMana)
      ("Account: $\x7baccount\x7d has $\x7brc_current\x7d RC, needs $\x7brc_needed\x7d RC. " ++
        "Please wait to transact, or power up freezone.")
    let kept := (¬ hasMana ∧ (S.skip.negativeRcBalance ∨ S.time ≤ 1538211600)) ∨ S.skip.deductRc
    let bar := if kept then bar
      else useManaDownTo bar (rc - delegated) (minMana maxMana)
    forEach (writeSlot name) draws (S.setRcAccount name { rca with rcManabar := bar })

/-! ### Delegations -/

/-- `maybe_cleanup_rc_pool`. The first edge at the pool's name or behind it keeps the pool, even
if it is one of another pool: all edges have the same symbol. -/
def maybeCleanupRcPool (pool : Name) (S : State) : Except String State := do
  let p ← S.getPool pool
  if p.maxRc = 0 ∧ ∀ e ∈ S.outdels.entries, e.1.1.before pool then
    .ok { S with pools := S.pools.erase pool }
  else .ok S

/-- What `delegate_to_pool` asks of a destination without a pool. -/
def checkDestination (S : State) : Name → Except String Unit
  | .nai symbol => do
    let phase ← orThrow "SST $\x7bs\x7d does not exist" (S.tokens symbol)
    ensure (phase = .icoCompleted ∨ phase = .launchSuccess)
      "SST $\x7bs\x7d must have succesfully completed ICO to receive delegation"
  | name => ensure (S.accounts.find? name).isSome "Account $\x7ba\x7d does not exist"

/-- The pool of a delegation, as it is or as it will be created. -/
def poolOrNew (S : State) (toPool : Name) : Except String Pool :=
  match S.pools.find? toPool with
  | some pool => .ok pool
  | none => do
    S.checkDestination toPool
    .ok ⟨⟨0, S.time⟩, 0⟩

/-- `new_rc`: the mana of a pool after a change of a delegation to it. -/
def newRc (oldMaxRc newMaxRc oldRc fromAccountRc : Int) : Int :=
  min newMaxRc (oldRc + max (min (newMaxRc - oldMaxRc) fromAccountRc) 0)

/-- The pool after a delegation; one of a token is created with its edge. -/
def storePool (toPool : Name) (pool : Pool) (S : State) : Except String State :=
  match S.pools.find? toPool with
  | some _ => .ok (S.setPool toPool pool)
  | none => do
    let pools ← orThrow uniqueness (S.pools.insert toPool pool)
    match toPool with
    | .nai _ => do
      let outdels ← orThrow uniqueness
        (S.outdels.insert (toPool, toPool) ⟨⟨0, S.time⟩, 2 ^ 63 - 1⟩)
      .ok { S with pools := pools, outdels := outdels }
    | _ => .ok { S with pools := pools }

/-- The indel edge after a delegation, and what its number changes by. -/
def storeIndel (fromAccount toPool : Name) (amount : Int) (S : State) :
    Except String (State × Int) :=
  match S.indels.find? (fromAccount, toPool) with
  | none => do
    let indels ← orThrow uniqueness (S.indels.insert (fromAccount, toPool) amount)
    .ok ({ S with indels := indels }, 1)
  | some _ =>
    if amount = 0 then do
      let S ← { S with indels := S.indels.erase (fromAccount, toPool) }.maybeCleanupRcPool toPool
      .ok (S, -1)
    else .ok ({ S with indels := S.indels.set (fromAccount, toPool) amount }, 0)

/-- `delegate_to_pool_evaluator` with the validation of the operation. -/
def delegateToPool (fromAccount toPool : Name) (amount : Int) (S : State) :
    Except String State := do
  ensure (fromAccount.isAccount ∧ toPool ≠ .empty) "Account name is invalid"
  ensure (0 ≤ amount) "Delegation to pool cannot be negative"
  if S.HasHardfork sstHardfork then do
    let rca ← S.getRcAccount fromAccount
    ensure (rca.rcManabar.lastUpdateTime = S.time)
      "from_rc_account.rc_manabar.last_update_time == now"
    let pool ← S.poolOrNew toPool
    let bar ← pool.rcPoolManabar.regenerateMana pool.maxRc rcRegenTime S.time
    let edge := S.indels.find? (fromAccount, toPool)
    ensure (edge = none → rca.outDelegations ≤ rcMaxIndel)
      "Account already has $\x7bn\x7d delegations."
    let delta := amount - edge.getD 0
    let rc := newRc (edge.getD 0) amount bar.currentMana rca.rcManabar.currentMana
    let a ← S.getAccount fromAccount
    ensure (delta ≤ getMaximumRc a rca)
      "Account $\x7ba\x7d has insufficient VESTS (have $\x7bh\x7d, need $\x7bn\x7d)"
    let S ← S.storePool toPool ⟨{ bar with currentMana := rc }, pool.maxRc + delta⟩
    let (S, count) ← S.storeIndel fromAccount toPool amount
    .ok (S.setRcAccount fromAccount { rca with
      rcManabar := { rca.rcManabar with
        currentMana := rca.rcManabar.currentMana - (rc - bar.currentMana) }
      vestsDelegatedToPools := rca.vestsDelegatedToPools + delta
      outDelegations := rca.outDelegations + count })
  else .ok S

/-- The outdel edge after `delegate_drc_from_pool`. -/
def storeOutdel (fromPool toAccount : Name) (drcMaxMana : Int) (S : State) : Except String State :=
  match S.outdels.find? (fromPool, toAccount) with
  | none => do
    let outdels ← orThrow uniqueness
      (S.outdels.insert (fromPool, toAccount) ⟨⟨drcMaxMana, S.time⟩, drcMaxMana⟩)
    .ok { S with outdels := outdels }
  | some edge => do
    let bar ← edge.drcManabar.regenerateMana edge.drcMaxMana rcRegenTime S.time
    if 0 < drcMaxMana then
      let mana := min (bar.currentMana + max 0 (drcMaxMana - edge.drcMaxMana)) drcMaxMana
      let edge : OutdelEdge := ⟨{ bar with currentMana := mana }, drcMaxMana⟩
      .ok { S with outdels := S.outdels.set (fromPool, toAccount) edge }
    else .ok { S with outdels := S.outdels.erase (fromPool, toAccount) }

/-- `delegate_drc_from_pool_evaluator` with the validation of the operation. An edge without mana
from a pool that does not exist makes it read a null pointer. -/
def delegateDrcFromPool (fromPool toAccount : Name) (toSlot : Fin rcMaxSlots) (drcMaxMana : Int)
    (S : State) : Except String State := do
  ensure (fromPool.isAccount ∧ toAccount.isAccount) "Account name is invalid"
  ensure (0 ≤ drcMaxMana) "drc_max_mana >= 0"
  if S.HasHardfork sstHardfork then do
    let rca ← S.getRcAccount toAccount
    ensure (rca.indelSlots toSlot = fromPool)
      "Pool cannot delegate RC to slot $\x7bn\x7d. Expected: $\x7be\x7d Was: $\x7bw\x7d"
    let S ← S.storeOutdel fromPool toAccount drcMaxMana
    match S.pools.find? fromPool with
    | some _ => S.maybeCleanupRcPool fromPool
    | none => do
      ensure (0 < drcMaxMana) "null pointer"
      let pools ← orThrow uniqueness (S.pools.insert fromPool ⟨⟨0, S.time⟩, 0⟩)
      .ok { S with pools := pools }
  else .ok S

/-- Who may change a slot. -/
def checkSlotSigner (a : Account) (rca : RcAccount) (toAccount signer : Name) (S : State) :
    Fin rcMaxSlots → Except String Unit
  | 0 => ensure (rca.creator = signer)
      "Only the account creator $\x7bc\x7d can change RC creator slot $\x7bn\x7d"
  | 1 =>
    if a.recoveryAccount ≠ .empty then ensure (a.recoveryAccount = signer)
      "Only recovery partner $\x7br\x7d can change RC recovery slot $\x7bn\x7d."
    else ensure (S.topWitness = signer)
      "Only top witness $\x7bw\x7d can change RC recovery slot $\x7bn\x7d."
  | 2 => ensure (signer = toAccount) "The user must change user controlled RC slots."

/-- The removal of the edge of a pool in `set_slot_delegator`. -/
def dropOutdel (fromPool toAccount : Name) (S : State) : Except String State :=
  if (S.outdels.find? (fromPool, toAccount)).isSome then
    { S with outdels := S.outdels.erase (fromPool, toAccount) }.maybeCleanupRcPool fromPool
  else .ok S

/-- `set_slot_delegator_evaluator` with the validation of the operation. It is the edge of the new
pool that is removed. -/
def setSlotDelegator (fromPool toAccount signer : Name) (toSlot : Fin rcMaxSlots) (S : State) :
    Except String State := do
  ensure (fromPool.isAccount ∧ toAccount.isAccount ∧ signer.isAccount) "Account name is invalid"
  if S.HasHardfork sstHardfork then do
    let a ← S.getAccount toAccount
    let _ ← S.getAccount fromPool
    let _ ← S.getAccount signer
    let rca ← S.getRcAccount toAccount
    S.checkSlotSigner a rca toAccount signer toSlot
    ensure (rca.indelSlots toSlot ≠ fromPool) "The slot must change."
    let S ← S.dropOutdel fromPool toAccount
    .ok (S.setRcAccount toAccount
      { rca with indelSlots := Function.update rca.indelSlots toSlot fromPool })
  else .ok S

/-! ### Changes of vesting shares -/

/-- The visitor's `regenerate` before an operation. -/
def regenerate (name : Name) (S : State) : Except String State := do
  let a ← orThrow "Unexpectedly, account $\x7ba\x7d does not exist" (S.accounts.find? name)
  let rca ← orThrow "Unexpectedly, rc_account $\x7ba\x7d does not exist" (S.rcAccounts.find? name)
  let maxMana := getMaximumRc a rca
  ensure (maxMana = rca.lastMaxRc ∨ S.skip.rejectUnknownDeltaVests)
    ("Account $\x7ba\x7d max RC changed from $\x7bold\x7d to $\x7bnew\x7d " ++
      "without triggering an op, noticed on block $\x7bb\x7d")
  let bar ← regenerateMana rca.rcManabar maxMana S.time
  .ok (S.setRcAccount name { rca with rcManabar := bar })

/-- The variables of the loop in `update_outdel_overflow`. -/
structure Overflow where
  state : State
  neededRcs : Int
  returnedRcs : Int := 0
  removed : Int := 0

/-- An iteration of the loop in `update_outdel_overflow`; the edges to remove are removed when the
loop is over, which it does not notice. -/
def reduceIndel (e : (Name × Name) × Int) (w : Overflow) : Except String Overflow :=
  if w.neededRcs ≤ 0 then .ok w
  else do
    let edgeDelta := min w.neededRcs e.2
    let pool ← w.state.getPool e.1.2
    let bar ← pool.restedBar w.state.time
    let returned := if 0 < bar.currentMana then min bar.currentMana edgeDelta else 0
    let S := w.state.setPool e.1.2
      ⟨{ bar with currentMana := bar.currentMana - returned }, pool.maxRc - edgeDelta⟩
    .ok {
      state := { S with indels :=
        if edgeDelta < e.2 then S.indels.set e.1 (e.2 - edgeDelta) else S.indels.erase e.1 }
      neededRcs := w.neededRcs - edgeDelta
      returnedRcs := w.returnedRcs + returned
      removed := if edgeDelta < e.2 then w.removed else w.removed + 1 }

/-- The indel edges of an account in the order of `by_edge`. -/
def indelsOf (S : State) (name : Name) : List ((Name × Name) × Int) :=
  (S.indels.entries.filter fun e => e.1.1 = name).insertionSort fun e e' => e.1.2.before e'.1.2

/-- `update_outdel_overflow` for VESTS. -/
def updateOutdelOverflow (name : Name) (S : State) : Except String State := do
  let rca ← S.getRcAccount name
  let a ← S.getAccount name
  let newMaxMana := getMaximumRc a rca
  if newMaxMana < rca.maxRcCreationAdjustment then do
    let delta := rca.maxRcCreationAdjustment - newMaxMana
    let w ← forEach reduceIndel (S.indelsOf name) ⟨S, delta, 0, 0⟩
    .ok (w.state.setRcAccount name { rca with
      rcManabar := { rca.rcManabar with
        currentMana := rca.rcManabar.currentMana + w.returnedRcs }
      vestsDelegatedToPools := rca.vestsDelegatedToPools - delta
      outDelegations := rca.outDelegations - w.removed })
  else .ok S

/-- An iteration of `update_modified_accounts`. -/
def updateModifiedAccount (info : Name × Bool) (S : State) : Except String State := do
  let a ← S.getAccount info.1
  let rca ← S.getRcAccount info.1
  let newLastMaxRc := getMaximumRc a rca
  let drc := if info.2 then newLastMaxRc - rca.lastMaxRc else 0
  .ok (S.setRcAccount info.1 { rca with
    lastMaxRc := newLastMaxRc
    rcManabar := { rca.rcManabar with currentMana := rca.rcManabar.currentMana + max drc 0 } })

/-- What an evaluator makes of the vesting shares of an account. -/
def changeVesting (change : Name × VestingAccount) (S : State) : Except String State := do
  let a ← S.getAccount change.1
  .ok { S with accounts := S.accounts.set change.1 { a with toVestingAccount := change.2 } }

/-- The visits around an operation on the vesting shares of some accounts; the last list is that of
the accounts whose delegations to pools are reduced. -/
def vestingOperation (changes : List (Name × VestingAccount)) (fillNewMana : Bool)
    (reduced : List Name) (S : State) : Except String State := do
  let S ← forEach regenerate (changes.map Prod.fst) S
  let S ← forEach changeVesting changes S
  let S ← forEach updateOutdelOverflow reduced S
  forEach updateModifiedAccount (changes.map fun c => (c.1, fillNewMana)) S

/-- The visits around `withdraw_vesting_operation`. -/
def withdrawVesting (account : Name) (a : VestingAccount) : State → Except String State :=
  vestingOperation [(account, a)] false [account]

/-- The visits around `delegate_vesting_shares_operation`. -/
def delegateVestingShares (delegator delegatee : Name) (a b : VestingAccount) :
    State → Except String State :=
  vestingOperation [(delegator, a), (delegatee, b)] true [delegator, delegatee]

/-- The visits around `fill_vesting_withdraw_operation`. -/
def fillVestingWithdraw (fromAccount toAccount : Name) (a b : VestingAccount) :
    State → Except String State :=
  vestingOperation [(fromAccount, a), (toAccount, b)] true [fromAccount]

/-- The visits around `delegate_to_pool_operation`. -/
def applyDelegateToPool (fromAccount toPool : Name) (amount : Int) (S : State) :
    Except String State := do
  let S ← S.regenerate fromAccount
  let S ← S.delegateToPool fromAccount toPool amount
  S.updateModifiedAccount (fromAccount, true)

/-! ### Runs -/

/-- What happens to the plugin's objects. -/
inductive Step
  /-- A block of some time later, made by this node or not, with what the chain then has. -/
  | block (seconds hardfork : Nat) (producing : Bool) (topWitness : Name)
      (tokens : Nat → Option Phase)
  | createAccount (name creator : Name) (a : Account) (adjustment : Int)
  | tokenLaunch (symbol : Nat) (controlAccount : Name)
  /-- An operation that only adds to vesting shares, such as a reward. -/
  | addVesting (name : Name) (a : VestingAccount)
  | withdrawVesting (name : Name) (a : VestingAccount)
  | delegateVestingShares (delegator delegatee : Name) (a b : VestingAccount)
  | fillVestingWithdraw (fromAccount toAccount : Name) (a b : VestingAccount)
  | delegateToPool (fromAccount toPool : Name) (amount : Int)
  | delegateDrcFromPool (fromPool toAccount : Name) (toSlot : Fin rcMaxSlots) (drcMaxMana : Int)
  | setSlotDelegator (fromPool toAccount signer : Name) (toSlot : Fin rcMaxSlots)
  | useAccountRcs (name : Name) (rc : Int)

/-- A step that returns. -/
def exec (S : State) : Step → Except String State
  | .block seconds hardfork producing topWitness tokens =>
    .ok { S with
      time := S.time + seconds
      hardfork := max S.hardfork hardfork
      producing := producing
      topWitness := topWitness
      tokens := tokens }
  | .createAccount name creator a adjustment => do
    let accounts ← orThrow uniqueness (S.accounts.insert name a)
    { S with accounts := accounts }.createRcAccount name creator adjustment
  | .tokenLaunch symbol controlAccount => S.launchRcAccount symbol controlAccount
  | .addVesting name a => S.vestingOperation [(name, a)] true []
  | .withdrawVesting name a => S.withdrawVesting name a
  | .delegateVestingShares delegator delegatee a b =>
      S.delegateVestingShares delegator delegatee a b
  | .fillVestingWithdraw fromAccount toAccount a b =>
      S.fillVestingWithdraw fromAccount toAccount a b
  | .delegateToPool fromAccount toPool amount => S.applyDelegateToPool fromAccount toPool amount
  | .delegateDrcFromPool fromPool toAccount toSlot drcMaxMana =>
    S.delegateDrcFromPool fromPool toAccount toSlot drcMaxMana
  | .setSlotDelegator fromPool toAccount signer toSlot =>
    S.setSlotDelegator fromPool toAccount signer toSlot
  | .useAccountRcs name rc => S.useAccountRcs name rc

/-- A step; one that throws is undone. -/
def apply (S : State) (step : Step) : State :=
  match S.exec step with
  | .ok S' => S'
  | .error _ => S

/-- A run. -/
def run (S : State) (steps : List Step) : State := steps.foldl apply S

/-- What a step keeps is kept by a run. -/
theorem run_invariant {P : State → Prop} {C : State → Step → Prop}
    (hstep : ∀ S S' step, P S → C S step → S.exec step = .ok S' → P S') {S : State}
    {steps : List Step} (hS : P S)
    (hC : ∀ l step r, steps = l ++ step :: r → C (S.run l) step) : P (S.run steps) := by
  induction steps generalizing S with
  | nil => exact hS
  | cons step steps ih =>
    have hnext : P (S.apply step) := by
      unfold apply
      cases h : S.exec step with
      | error e => exact hS
      | ok S' => exact hstep S S' step hS (hC [] step steps rfl) h
    exact ih hnext fun l step' r heq => hC (step :: l) step' r (by rw [heq, List.cons_append])

end State

end Freezone.Plugins.Rc
