import Freezone.Chain.Ledger.Model

/-!
# Escrows

An escrow holds FREEZONE and SBD of its sender and a fee for its agent. The
receiver and the agent have to approve it before a deadline; then the agent has
the fee, and the sender and the receiver can release the funds to each other. In a
dispute only the agent can. Every step leaves an event with the id of the escrow.
-/

namespace Freezone.Chain.Funds

open Protocol

/-- The key of an escrow: its sender and the number the sender gave it. -/
abbrev EscrowKey := AccountName × Nat

/-- `escrow_transfer_operation`. -/
structure EscrowTransfer where
  fromAccount : AccountName
  toAccount : AccountName
  sbdAmount : Int
  freezoneAmount : Int
  escrowId : Nat
  agent : AccountName
  fee : Asset Liquid
  ratificationDeadline : Nat
  escrowExpiration : Nat

/-- `escrow_approve_operation`. -/
structure EscrowApprove where
  fromAccount : AccountName
  toAccount : AccountName
  agent : AccountName
  who : AccountName
  escrowId : Nat
  approve : Bool

/-- `escrow_dispute_operation`. -/
structure EscrowDispute where
  fromAccount : AccountName
  toAccount : AccountName
  agent : AccountName
  who : AccountName
  escrowId : Nat

/-- `escrow_release_operation`. -/
structure EscrowRelease where
  fromAccount : AccountName
  toAccount : AccountName
  agent : AccountName
  who : AccountName
  receiver : AccountName
  escrowId : Nat
  sbdAmount : Int
  freezoneAmount : Int

namespace Ledger

/-- Add an event of an escrow. -/
def logEscrow (id : Nat) (e : EscrowEvent) (L : Ledger) : Ledger :=
  { L with escrowLog := L.escrowLog ++ [(id, e)] }

/-- `get_escrow`. -/
def getEscrow (key : EscrowKey) (L : Ledger) : Except String Escrow :=
  orThrow "unknown key" (L.escrows.find? key)

def setEscrow (key : EscrowKey) (e : Escrow) (L : Ledger) : Ledger :=
  { L with escrows := L.escrows.set key e }

/-- Pay an amount out of an escrow to an account, for the reason in the event. -/
def payEscrow (id : Nat) (receiver : AccountName) (amount : Asset Liquid) (e : EscrowEvent)
    (L : Ledger) : Except String Ledger := do
  let L ← L.adjustBalance receiver amount
  .ok (L.logEscrow id e)

/-- Return all that an escrow holds to its sender and remove it. -/
def refundEscrow (key : EscrowKey) (e : Escrow) (L : Ledger) : Except String Ledger := do
  let freezone : Asset Liquid := ⟨e.freezoneBalance, .freezone⟩
  let sbd : Asset Liquid := ⟨e.sbdBalance, .sbd⟩
  let L ← L.payEscrow e.id key.1 freezone (.refunded key.1 freezone)
  let L ← L.payEscrow e.id key.1 sbd (.refunded key.1 sbd)
  let L ← L.payEscrow e.id key.1 e.pendingFee (.refunded key.1 e.pendingFee)
  .ok { L with escrows := L.escrows.erase key }

/-- `escrow_transfer_evaluator`. -/
def escrowTransfer (o : EscrowTransfer) (L : Ledger) : Except String Ledger := do
  ensure (0 ≤ o.fee.amount) "fee cannot be negative"
  ensure (0 ≤ o.sbdAmount) "sbd amount cannot be negative"
  ensure (0 ≤ o.freezoneAmount) "freezone amount cannot be negative"
  ensure (0 < o.sbdAmount ∨ 0 < o.freezoneAmount) "escrow must transfer a non-zero amount"
  ensure (o.fromAccount ≠ o.agent ∧ o.toAccount ≠ o.agent) "agent must be a third party"
  ensure (o.ratificationDeadline < o.escrowExpiration)
    "ratification deadline must be before escrow expiration"
  let _ ← L.getAccount o.toAccount
  let _ ← L.getAccount o.agent
  ensure (L.props.time < o.ratificationDeadline)
    "The escorw ratification deadline must be after head block time."
  ensure (L.props.time < o.escrowExpiration) "The escrow expiration must be after head block time."
  let L ← L.adjustBalance o.fromAccount ⟨-(o.freezoneAmount + o.fee.part .freezone), .freezone⟩
  let L ← L.adjustBalance o.fromAccount ⟨-(o.sbdAmount + o.fee.part .sbd), .sbd⟩
  let escrows ← orThrow uniqueness (L.escrows.insert (o.fromAccount, o.escrowId) {
    id := L.nextEscrowId
    toAccount := o.toAccount
    agent := o.agent
    ratificationDeadline := o.ratificationDeadline
    escrowExpiration := o.escrowExpiration
    sbdBalance := o.sbdAmount
    freezoneBalance := o.freezoneAmount
    pendingFee := o.fee })
  .ok ({ L with escrows := escrows, nextEscrowId := L.nextEscrowId + 1 }.logEscrow L.nextEscrowId
    (.deposited o.fromAccount o.toAccount o.agent o.freezoneAmount o.sbdAmount o.fee))

/-- `escrow_approve_evaluator`. -/
def escrowApprove (o : EscrowApprove) (L : Ledger) : Except String Ledger := do
  ensure (o.who = o.toAccount ∨ o.who = o.agent) "to or agent must approve escrow"
  let key := (o.fromAccount, o.escrowId)
  let escrow ← L.getEscrow key
  ensure (escrow.toAccount = o.toAccount)
    "Operation 'to' (${o}) does not match escrow 'to' (${e})."
  ensure (escrow.agent = o.agent) "Operation 'agent' (${a}) does not match escrow 'agent' (${e})."
  ensure (L.props.time ≤ escrow.ratificationDeadline)
    "The escrow ratification deadline has passed. Escrow can no longer be ratified."
  ensure (o.who = o.toAccount → escrow.toApproved = false)
    "Account 'to' (${t}) has already approved the escrow."
  ensure (o.who = o.agent → escrow.agentApproved = false)
    "Account 'agent' (${a}) has already approved the escrow."
  if o.approve then do
    let escrow := { escrow with
      toApproved := escrow.toApproved || decide (o.who = o.toAccount)
      agentApproved := escrow.agentApproved || decide (o.who = o.agent) }
    let L := (L.setEscrow key escrow).logEscrow escrow.id (.approved o.who)
    if escrow.toApproved ∧ escrow.agentApproved then do
      let L ← L.payEscrow escrow.id o.agent escrow.pendingFee (.feePaid o.agent escrow.pendingFee)
      .ok (L.setEscrow key { escrow with pendingFee := ⟨0, escrow.pendingFee.symbol⟩ })
    else .ok L
  else (L.logEscrow escrow.id (.rejected o.who)).refundEscrow key escrow

/-- `escrow_dispute_evaluator`. -/
def escrowDispute (o : EscrowDispute) (L : Ledger) : Except String Ledger := do
  ensure (o.who = o.fromAccount ∨ o.who = o.toAccount) "who must be from or to"
  let _ ← L.getAccount o.fromAccount
  let key := (o.fromAccount, o.escrowId)
  let escrow ← L.getEscrow key
  ensure (L.props.time < escrow.escrowExpiration)
    "Disputing the escrow must happen before expiration."
  ensure (escrow.toApproved ∧ escrow.agentApproved)
    "The escrow must be approved by all parties before a dispute can be raised."
  ensure (escrow.disputed = false) "The escrow is already under dispute."
  ensure (escrow.toAccount = o.toAccount)
    "Operation 'to' (${o}) does not match escrow 'to' (${e})."
  ensure (escrow.agent = o.agent) "Operation 'agent' (${a}) does not match escrow 'agent' (${e})."
  .ok ((L.setEscrow key { escrow with disputed := true }).logEscrow escrow.id (.disputed o.who))

/-- Who may release the funds of an escrow to whom. -/
def checkRelease (o : EscrowRelease) (escrow : Escrow) (now : Nat) : Except String Unit :=
  if escrow.disputed then
    ensure (o.who = escrow.agent) "Only 'agent' (${a}) can release funds in a disputed escrow."
  else do
    ensure (o.who = o.fromAccount ∨ o.who = escrow.toAccount)
      "Only 'from' (${f}) and 'to' (${t}) can release funds from a non-disputed escrow"
    if now < escrow.escrowExpiration then
      if o.who = o.fromAccount then
        ensure (o.receiver = escrow.toAccount)
          "Only 'from' (${f}) can release funds to 'to' (${t})."
      else ensure (o.receiver =
          o.fromAccount) "Only 'to' (${t}) can release funds to 'from' (${t})."
    else .ok ()

/-- `escrow_release_evaluator`. -/
def escrowRelease (o : EscrowRelease) (L : Ledger) : Except String Ledger := do
  ensure (o.who = o.fromAccount ∨ o.who = o.toAccount ∨ o.who = o.agent)
    "who must be from or to or agent"
  ensure (o.receiver = o.fromAccount ∨ o.receiver = o.toAccount) "receiver must be from or to"
  ensure (0 ≤ o.sbdAmount) "sbd amount cannot be negative"
  ensure (0 ≤ o.freezoneAmount) "freezone amount cannot be negative"
  ensure (0 < o.sbdAmount ∨ 0 < o.freezoneAmount) "escrow must release a non-zero amount"
  let _ ← L.getAccount o.fromAccount
  let key := (o.fromAccount, o.escrowId)
  let escrow ← L.getEscrow key
  ensure (o.freezoneAmount ≤ escrow.freezoneBalance)
    "Release amount exceeds escrow balance. Amount: ${a}, Balance: ${b}"
  ensure (o.sbdAmount ≤ escrow.sbdBalance)
    "Release amount exceeds escrow balance. Amount: ${a}, Balance: ${b}"
  ensure (escrow.toAccount = o.toAccount)
    "Operation 'to' (${o}) does not match escrow 'to' (${e})."
  ensure (escrow.agent = o.agent) "Operation 'agent' (${a}) does not match escrow 'agent' (${e})."
  ensure (o.receiver = o.fromAccount ∨ o.receiver = escrow.toAccount)
    "Funds must be released to 'from' (${f}) or 'to' (${t})"
  ensure (escrow.toApproved ∧ escrow.agentApproved)
    "Funds cannot be released prior to escrow approval."
  checkRelease o escrow L.props.time
  let freezone : Asset Liquid := ⟨o.freezoneAmount, .freezone⟩
  let sbd : Asset Liquid := ⟨o.sbdAmount, .sbd⟩
  let L ← L.payEscrow escrow.id o.receiver freezone (.released o.who o.receiver freezone)
  let L ← L.payEscrow escrow.id o.receiver sbd (.released o.who o.receiver sbd)
  let escrow := { escrow with
    freezoneBalance := escrow.freezoneBalance - o.freezoneAmount
    sbdBalance := escrow.sbdBalance - o.sbdAmount }
  if escrow.freezoneBalance = 0 ∧ escrow.sbdBalance = 0 then
    .ok { L with escrows := L.escrows.erase key }
  else .ok (L.setEscrow key escrow)

/-- The escrows whose ratification has expired, by deadline and then by age. -/
def expiredEscrows (L : Ledger) : List (EscrowKey × Escrow) :=
  (L.escrows.entries.filter fun e =>
      ¬ (e.2.toApproved ∧ e.2.agentApproved) ∧
        e.2.ratificationDeadline ≤ L.props.time).insertionSort
    fun e f => e.2.ratificationDeadline ≤ f.2.ratificationDeadline

/-- `expire_escrow_ratification`. -/
def expireEscrowRatification (L : Ledger) : Except String Ledger :=
  forEach (fun e L => (L.logEscrow e.2.id .expired).refundEscrow e.1 e.2) L.expiredEscrows L

end Ledger

end Freezone.Chain.Funds
