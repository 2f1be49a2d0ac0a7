import Freezone.Chain.Evaluation.Model

/-!
# The automated actions of a token offering

An offering of a token is a chain of required actions. Its launch schedules its
evaluation, which schedules either the launch of the token or the refunds; the
launch schedules the payouts to the contributors and then to the founders. Each
refund and each payout schedules the next one. No evaluator looks at the time.

The amounts of the payouts are left open, and so is what the actions do to
accounts. Symbols and accounts are numbers.
-/

namespace Freezone.Chain.Sst

/-- `SST_phase`. -/
inductive Phase
  | setup
  | setupCompleted
  | ico
  | icoCompleted
  | launchFailed
  | launchSuccess
  deriving DecidableEq

/-- `SST_token_object`. -/
structure Token where
  liquidSymbol : Nat
  controlAccount : Nat
  phase : Phase
  deriving DecidableEq

/-- `SST_ico_object`. -/
structure Ico where
  symbol : Nat
  contributionEndTime : Nat
  launchTime : Nat
  satoshiMin : Nat
  contributed : Nat
  processedContributions : Nat
  deriving DecidableEq

/-- `SST_contribution_object`. -/
structure Contribution where
  symbol : Nat
  contributor : Nat
  contributionId : Nat
  contribution : Nat
  deriving DecidableEq

/-- The objects of the offerings; the contributions in the order of their ids. -/
structure Tokens where
  tokens : List Token
  icos : List Ico
  contributions : List Contribution
  deriving DecidableEq

/-- The required actions, with `Q` for the amounts of payouts. -/
inductive Action (Q : Type)
  | icoLaunch (controlAccount symbol : Nat)
  | icoEvaluation (controlAccount symbol : Nat)
  | tokenLaunch (controlAccount symbol : Nat)
  | refund (contributor symbol contributionId refund : Nat)
  | contributorPayout (contributor symbol contributionId contribution : Nat) (payouts : Q)
  | founderPayout (symbol : Nat) (payouts : Q)
  deriving DecidableEq

/-- The amounts that the scheduling functions compute; founders may get nothing. -/
structure PayoutRules (Q : Type) where
  contributorPayouts : Tokens → Contribution → Q
  founderPayouts : Tokens → Nat → Option Q

namespace Tokens

def findToken (t : Tokens) (symbol : Nat) : Option Token :=
  t.tokens.find? fun token => token.liquidSymbol = symbol

def findIco (t : Tokens) (symbol : Nat) : Option Ico :=
  t.icos.find? fun ico => ico.symbol = symbol

def setPhase (t : Tokens) (symbol : Nat) (phase : Phase) : Tokens :=
  { t with tokens := t.tokens.map fun token =>
    if token.liquidSymbol = symbol then { token with phase := phase } else token }

/-- Add to `processed_contributions`. -/
def addProcessed (t : Tokens) (symbol amount : Nat) : Tokens :=
  { t with icos := t.icos.map fun ico =>
    if ico.symbol = symbol then
      { ico with processedContributions := ico.processedContributions + amount }
    else ico }

/-- `remove_ico_objects`. -/
def removeIco (t : Tokens) (symbol : Nat) : Tokens :=
  { t with icos := t.icos.filter fun ico => ico.symbol ≠ symbol }

/-- The contribution with a key; its absence is an exception. -/
def removeContribution (t : Tokens) (symbol contributor contributionId : Nat) : Option Tokens :=
  if t.contributions.any fun c =>
      c.symbol = symbol ∧ c.contributor = contributor ∧ c.contributionId = contributionId then
    some { t with contributions := t.contributions.filter fun c =>
      ¬ (c.symbol = symbol ∧ c.contributor = contributor ∧ c.contributionId = contributionId) }
  else none

def nextContribution (t : Tokens) (symbol : Nat) : Option Contribution :=
  t.contributions.find? fun c => c.symbol = symbol

end Tokens

variable {Q : Type}

/-- `schedule_next_refund`. -/
def scheduleNextRefund (t : Tokens) (symbol : Nat) : Option (Action Q) :=
  (t.nextContribution symbol).map fun c =>
    .refund c.contributor c.symbol c.contributionId c.contribution

/-- `schedule_next_contributor_payout`. -/
def scheduleNextContributorPayout (rules : PayoutRules Q) (t : Tokens) (symbol : Nat) :
    Option (Action Q) :=
  (t.nextContribution symbol).map fun c =>
    .contributorPayout c.contributor c.symbol c.contributionId c.contribution
      (rules.contributorPayouts t c)

/-- `schedule_founder_payout`. -/
def scheduleFounderPayout (rules : PayoutRules Q) (t : Tokens) (symbol : Nat) : Option (Action Q) :=
  (rules.founderPayouts t symbol).map fun payouts => .founderPayout symbol payouts

/-- Push the next action at the head block time, or remove the offering. -/
def pushOrRemove (now : Nat) (t : Tokens) (symbol : Nat) :
    Option (Action Q) → Tokens × List (Action Q × Nat)
  | some action => (t, [(action, now)])
  | none => (t.removeIco symbol, [])

/-- The required action evaluators. -/
def evaluate (rules : PayoutRules Q) (now : Nat) :
    Action Q → Tokens → Option (Tokens × List (Action Q × Nat))
  | .icoLaunch _ symbol, t => do
    let token ← t.findToken symbol
    let ico ← t.findIco token.liquidSymbol
    some (t.setPhase symbol .ico,
      [(.icoEvaluation token.controlAccount token.liquidSymbol, ico.contributionEndTime)])
  | .icoEvaluation _ symbol, t => do
    let token ← t.findToken symbol
    let ico ← t.findIco token.liquidSymbol
    if ico.satoshiMin ≤ ico.contributed then
      some (t.setPhase symbol .icoCompleted,
        [(.tokenLaunch token.controlAccount token.liquidSymbol, ico.launchTime)])
    else
      let t := t.setPhase symbol .launchFailed
      some (pushOrRemove now t symbol (scheduleNextRefund t token.liquidSymbol))
  | .tokenLaunch _ symbol, t => do
    let token ← t.findToken symbol
    let t := t.setPhase symbol .launchSuccess
    some (pushOrRemove now t symbol (scheduleNextContributorPayout rules t token.liquidSymbol))
  | .refund contributor symbol contributionId refund, t => do
    let _ ← t.findIco symbol
    let t ← (t.addProcessed symbol refund).removeContribution symbol contributor contributionId
    some (pushOrRemove now t symbol (scheduleNextRefund t symbol))
  | .contributorPayout contributor symbol contributionId contribution _, t => do
    let _ ← t.findIco symbol
    let t ←
      (t.addProcessed symbol contribution).removeContribution symbol contributor contributionId
    some (pushOrRemove now t symbol
      ((scheduleNextContributorPayout rules t symbol).or (scheduleFounderPayout rules t symbol)))
  | .founderPayout symbol _, t => do
    let _ ← t.findToken symbol
    let _ ← t.findIco symbol
    some (t.removeIco symbol, [])

end Freezone.Chain.Sst
