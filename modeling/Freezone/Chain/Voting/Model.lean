import Freezone.Chain.Ledger.Model

/-!
# Votes for witnesses

The accounts with their vesting shares, proxies and votes for witnesses, and every
function of the database that changes one of these. The votes of a witness and the
shares that are proxied to an account are kept up to date with each change.

The virtual schedule of the witnesses is left out. What a change of vesting shares
needs besides is the ledger's.
-/

namespace Freezone.Chain.Voting

open Funds (AccountName nullAccount minerAccount tempAccount initMinerAccount numHardforks
  uniqueness)

/-- `freezone_MAX_PROXY_RECURSION_DEPTH`. -/
def maxProxyRecursionDepth : Nat := 4

/-- `freezone_MAX_ACCOUNT_WITNESS_VOTES`. -/
def maxAccountWitnessVotes : Nat := 30

/-- `freezone_OWNER_AUTH_RECOVERY_PERIOD`. -/
def ownerAuthRecoveryPeriod : Nat := 30 * 24 * 60 * 60

/-- The part of `account_object` that concerns votes for witnesses; without a proxy the account
votes itself. -/
structure Voter where
  vestingShares : Int := 0
  proxy : Option AccountName := none
  canVote : Bool := true
  proxiedVsfVotes : Fin maxProxyRecursionDepth → Int := fun _ => 0
  witnessesVotedFor : Nat := 0

namespace Voter

/-- `witness_vote_weight`. -/
def witnessVoteWeight (a : Voter) : Int := a.vestingShares + ∑ i, a.proxiedVsfVotes i

/-- The array of the shares of an account and the shares proxied to it. -/
def shares (a : Voter) : Nat → Int
  | 0 => a.vestingShares
  | i + 1 => if h : i < maxProxyRecursionDepth then a.proxiedVsfVotes ⟨i, h⟩ else 0

/-- Add an array to the proxied shares, from a depth on. -/
def addProxied (depth : Nat) (delta : Nat → Int) (a : Voter) : Voter :=
  { a with proxiedVsfVotes := fun i =>
      a.proxiedVsfVotes i + if depth ≤ i then delta (i - depth) else 0 }

end Voter

/-- The accounts, the witnesses with their votes, who votes for whom, and the requests to decline
voting rights with their dates. -/
structure Electorate where
  hardfork : Nat := 0
  time : Nat := 0
  totalVestingShares : Int := 0
  accounts : Table AccountName Voter := Table.empty
  witnesses : Table AccountName Int := Table.empty
  witnessVotes : Table (AccountName × AccountName) Unit := Table.empty
  declineRequests : Table AccountName Nat := Table.empty

namespace Electorate

/-- `has_hardfork`. -/
def HasHardfork (s : Electorate) (n : Nat) : Prop := n ≤ s.hardfork

instance (s : Electorate) (n : Nat) : Decidable (s.HasHardfork n) :=
  inferInstanceAs (Decidable (n ≤ s.hardfork))

/-- `get_account`. -/
def getAccount (name : AccountName) (s : Electorate) : Except String Voter :=
  orThrow "unknown key" (s.accounts.find? name)

def setAccount (name : AccountName) (a : Voter) (s : Electorate) : Electorate :=
  { s with accounts := s.accounts.set name a }

/-- An account votes for a witness. -/
def Voted (s : Electorate) (account witness : AccountName) : Prop :=
  (s.witnessVotes.find? (account, witness)).isSome

instance (s : Electorate) (account witness : AccountName) : Decidable (s.Voted account witness) :=
  inferInstanceAs (Decidable (_ = true))

/-- `adjust_witness_vote`. -/
def adjustWitnessVote (witness : AccountName) (delta : Int) (s : Electorate) :
    Except String Electorate := do
  let votes ← orThrow "unknown key" (s.witnesses.find? witness)
  ensure (votes + delta ≤ s.totalVestingShares)
    "w.votes <= get_dynamic_global_properties().total_vesting_shares.amount"
  .ok { s with witnesses := s.witnesses.set witness (votes + delta) }

/-- The witnesses for which an account votes, in their order. -/
def votedFor (account : AccountName) (s : Electorate) : List AccountName :=
  ((s.witnessVotes.entries.filter fun e => e.1.1 = account).map fun e =>
      e.1.2).insertionSort (· ≤ ·)

/-- `adjust_witness_votes`. -/
def adjustWitnessVotes (account : AccountName) (delta : Int) (s : Electorate) :
    Except String Electorate :=
  forEach (fun witness s => s.adjustWitnessVote witness delta) (s.votedFor account) s

/-- `adjust_proxied_witness_votes` of an array, with the number of proxies that may follow: the
depth is what this is below the maximum. -/
def adjustProxiedArray (delta : Nat → Int) : Nat → AccountName → Electorate →
    Except String Electorate
  | remaining, account, s => do
    let a ← s.getAccount account
    match a.proxy with
    | none => s.adjustWitnessVotes account (∑ i ∈ Finset.range (remaining + 1), delta i)
    | some proxy =>
      match remaining with
      | 0 => .ok s
      | remaining + 1 => do
        let p ← s.getAccount proxy
        adjustProxiedArray delta remaining proxy
          (s.setAccount proxy (p.addProxied (maxProxyRecursionDepth - (remaining + 1)) delta))

/-- `adjust_proxied_witness_votes` of a single amount. -/
def adjustProxied (delta : Int) : Nat → AccountName → Electorate → Except String Electorate
  | remaining, account, s => do
    let a ← s.getAccount account
    match a.proxy with
    | none => s.adjustWitnessVotes account delta
    | some proxy =>
      match remaining with
      | 0 => .ok s
      | remaining + 1 => do
        let p ← s.getAccount proxy
        adjustProxied delta remaining proxy (s.setAccount proxy { p with
          proxiedVsfVotes := fun i => p.proxiedVsfVotes i +
            if (i : Nat) = maxProxyRecursionDepth - (remaining + 1) then delta else 0 })

/-- `clear_witness_votes`. -/
def clearWitnessVotes (account : AccountName) (s : Electorate) : Except String Electorate := do
  let a ← s.getAccount account
  let s := { s with witnessVotes := s.witnessVotes.restrict fun k => k.1 ≠ account }
  if s.HasHardfork 6 then .ok (s.setAccount account { a with witnessesVotedFor := 0 }) else .ok s

/-- The loop of `account_witness_proxy_evaluator` that looks for proxy loops. The chain grows with
every round and is too long after three of them. -/
def checkProxyChain (s : Electorate) : Nat → List AccountName → AccountName → Except String Unit
  | 0, _, _ => .error "Proxy chain is too long."
  | rounds + 1, chain, current => do
    let c ← s.getAccount current
    match c.proxy with
    | none => .ok ()
    | some next => do
      let _ ← s.getAccount next
      ensure (next ∉ chain) "This proxy would create a proxy loop."
      ensure (chain.length + 1 ≤ maxProxyRecursionDepth) "Proxy chain is too long."
      checkProxyChain s rounds (next :: chain) next

/-- `account_witness_proxy_evaluator`. The null account has no keys to sign with. -/
def accountWitnessProxy (account : AccountName) (proxy : Option AccountName) (s : Electorate) :
    Except String Electorate := do
  ensure (account ≠ nullAccount) "missing required active authority"
  ensure (proxy ≠ some account) "Cannot proxy to self"
  let a ← s.getAccount account
  ensure (a.proxy ≠ proxy) "Proxy must change."
  ensure a.canVote "Account has declined the ability to vote and cannot proxy votes."
  let s ← s.adjustProxiedArray (fun i => -a.shares i) maxProxyRecursionDepth account
  match proxy with
  | some newProxy => do
    let _ ← s.getAccount newProxy
    s.checkProxyChain maxProxyRecursionDepth [account, newProxy] newProxy
    let s ← s.clearWitnessVotes account
    let current ← s.getAccount account
    let s := s.setAccount account { current with proxy := some newProxy }
    s.adjustProxiedArray a.shares maxProxyRecursionDepth account
  | none => do
    let current ← s.getAccount account
    .ok (s.setAccount account { current with proxy := none })

/-- The change of the votes of a witness for a vote of an account: from hardfork 2 to 3 every
witness of the account is adjusted. -/
def adjustForVote (account witness : AccountName) (weight : Int) (s : Electorate) :
    Except String Electorate :=
  if s.HasHardfork 3 then s.adjustWitnessVote witness weight
  else if s.HasHardfork 2 then s.adjustProxied weight maxProxyRecursionDepth account
  else do
    let votes ← orThrow "unknown key" (s.witnesses.find? witness)
    .ok { s with witnesses := s.witnesses.set witness (votes + weight) }

/-- `account_witness_vote_evaluator`. -/
def accountWitnessVote (account witness : AccountName) (approve : Bool) (s : Electorate) :
    Except String Electorate := do
  ensure (account ≠ nullAccount) "missing required active authority"
  let a ← s.getAccount account
  ensure (a.proxy = none)
    "A proxy is currently set, please clear the proxy before voting for a witness."
  ensure (approve → a.canVote) "Account has declined its voting rights."
  let _ ← orThrow "unknown key" (s.witnesses.find? witness)
  if ¬ s.Voted account witness then do
    ensure approve "Vote doesn't exist, user must indicate a desire to approve witness."
    ensure (s.HasHardfork 2 → a.witnessesVotedFor < maxAccountWitnessVotes)
      "Account has voted for too many witnesses."
    let votes ← orThrow uniqueness (s.witnessVotes.insert (account, witness) ())
    let s ← { s with witnessVotes := votes }.adjustForVote account witness a.witnessVoteWeight
    let a ← s.getAccount account
    .ok (s.setAccount account { a with witnessesVotedFor := (a.witnessesVotedFor + 1) % 2 ^ 16 })
  else do
    ensure (¬ approve) "Vote currently exists, user must indicate a desire to reject witness."
    let s ← s.adjustForVote account witness (-a.witnessVoteWeight)
    let a ← s.getAccount account
    let s := s.setAccount account
      { a with witnessesVotedFor := (a.witnessesVotedFor + (2 ^ 16 - 1)) % 2 ^ 16 }
    .ok { s with witnessVotes := s.witnessVotes.erase (account, witness) }

/-- `decline_voting_rights_evaluator`. -/
def declineVotingRights (account : AccountName) (decline : Bool) (s : Electorate) :
    Except String Electorate := do
  ensure (s.HasHardfork 14) "_db.has_hardfork( freezone_HARDFORK_0_14__324 )"
  let _ ← s.getAccount account
  if decline then do
    ensure (s.declineRequests.find? account = none)
      "Cannot create new request because one already exists."
    let requests ← orThrow uniqueness
      (s.declineRequests.insert account (s.time + ownerAuthRecoveryPeriod))
    .ok { s with declineRequests := requests }
  else do
    ensure (s.declineRequests.find? account ≠ none)
      "Cannot cancel the request because it does not exist."
    .ok { s with declineRequests := s.declineRequests.erase account }

/-- One round of the loop of `process_decline_voting_rights`. -/
def declineNow (account : AccountName) (s : Electorate) : Except String Electorate := do
  let a ← s.getAccount account
  let s ← s.adjustProxiedArray (fun i => -a.shares i) maxProxyRecursionDepth account
  let s ← s.clearWitnessVotes account
  let current ← s.getAccount account
  let s := s.setAccount account { current with canVote := false, proxy := none }
  .ok { s with declineRequests := s.declineRequests.erase account }

/-- The order of `by_effective_date`. -/
def effectiveBefore (e f : AccountName × Nat) : Prop := e.2 < f.2 ∨ e.2 = f.2 ∧ e.1 ≤ f.1

instance : DecidableRel effectiveBefore := fun _ _ => inferInstanceAs (Decidable (_ ∨ _))

/-- `process_decline_voting_rights`. -/
def processDeclineVotingRights (s : Electorate) : Except String Electorate :=
  forEach (fun e s => s.declineNow e.1)
    ((s.declineRequests.entries.filter fun e => e.2 ≤ s.time).insertionSort effectiveBefore) s

/-- Change the vesting shares of an account and all vesting shares, and adjust the votes. -/
def changeVesting (account : AccountName) (delta total : Int) (s : Electorate) :
    Except String Electorate := do
  let a ← s.getAccount account
  let s := s.setAccount account { a with vestingShares := a.vestingShares + delta }
  { s with totalVestingShares := s.totalVestingShares + total }.adjustProxied delta
    maxProxyRecursionDepth account

/-- `create_vesting2` of vesting shares that do not go to the rewards, and
`claim_reward_balance_evaluator`. -/
def gainVesting (account : AccountName) (shares : Int) (s : Electorate) :
    Except String Electorate := s.changeVesting account shares shares

/-- The deposit of shares along a route in `process_vesting_withdrawals`; the total stays. -/
def depositVests (account : AccountName) (shares : Int) (s : Electorate) :
    Except String Electorate := if 0 < shares then s.changeVesting account shares 0 else .ok s

/-- The withdrawal of shares in `process_vesting_withdrawals`; those that are not deposited leave
the total. -/
def withdrawVests (account : AccountName) (shares leaving : Int) (s : Electorate) :
    Except String Electorate :=
  if 0 < shares then s.changeVesting account (-shares) (-leaving)
  else .ok { s with totalVestingShares := s.totalVestingShares - leaving }

/-- The vesting shares in `clear_null_account_balance`, which leave the total in any case and the
account if something is burned. -/
def clearNullVesting (emptied : Bool) (s : Electorate) : Except String Electorate := do
  let a ← s.getAccount nullAccount
  let s := { s with totalVestingShares := s.totalVestingShares - a.vestingShares }
  if emptied then .ok (s.setAccount nullAccount { a with vestingShares := 0 }) else .ok s

/-- The creation of an account. -/
def accountCreate (name : AccountName) (s : Electorate) : Except String Electorate := do
  let accounts ← orThrow uniqueness (s.accounts.insert name {})
  .ok { s with accounts := accounts }

/-- `witness_update_evaluator`, as far as it creates a witness. -/
def witnessUpdate (owner : AccountName) (s : Electorate) : Except String Electorate := do
  let _ ← s.getAccount owner
  if (s.witnesses.find? owner).isSome then .ok s
  else do
    let witnesses ← orThrow uniqueness (s.witnesses.insert owner 0)
    .ok { s with witnesses := witnesses }

/-- The votes of an account in `retally_witness_votes`. -/
def retallyAccount (e : AccountName × Voter) (s : Electorate) : Except String Electorate :=
  if e.2.proxy = none then s.adjustWitnessVotes e.1 e.2.witnessVoteWeight else .ok s

/-- `retally_witness_votes`. -/
def retallyWitnessVotes (s : Electorate) : Except String Electorate :=
  forEach retallyAccount s.accounts.entries { s with witnesses := s.witnesses.map fun _ => 0 }

/-- `retally_witness_vote_counts`. -/
def retallyWitnessVoteCounts (force : Bool) (s : Electorate) : Electorate :=
  { s with accounts := s.accounts.mapWithKey fun name a => { a with witnessesVotedFor :=
      if force ∨ a.proxy ≠ none then (s.votedFor name).length % 2 ^ 16 else 0 } }

/-- `perform_vesting_share_split` of an account. -/
def splitShares (magnitude : Int) (a : Voter) : Voter :=
  { a with
    vestingShares := a.vestingShares * magnitude
    proxiedVsfVotes := fun i => a.proxiedVsfVotes i * magnitude }

/-- `apply_hardfork` of the next hardfork, as far as it concerns votes for witnesses. -/
def applyHardfork (s : Electorate) : Except String Electorate := do
  ensure (s.hardfork < numHardforks) "i <= freezone_NUM_HARDFORKS"
  let s := { s with hardfork := s.hardfork + 1 }
  if s.hardfork = 1 then
    .ok { s with
      totalVestingShares := s.totalVestingShares * 1000000
      accounts := s.accounts.map (splitShares 1000000) }
  else if s.hardfork = 2 ∨ s.hardfork = 3 then s.retallyWitnessVotes
  else if s.hardfork = 6 then .ok (s.retallyWitnessVoteCounts false)
  else if s.hardfork = 8 then .ok (s.retallyWitnessVoteCounts true)
  else .ok s

/-- `init_genesis`. -/
def genesis (time : Nat) : Electorate where
  time := time
  accounts := ⟨[(minerAccount, {}), (nullAccount, {}), (tempAccount, {}), (initMinerAccount, {})],
    Funds.Ledger.genesisNames_nodup⟩
  witnesses := ⟨[(initMinerAccount, 0)], List.nodup_singleton _⟩

end Electorate

/-- The steps that concern votes for witnesses. -/
inductive VotingStep
  | accountWitnessProxy (account : AccountName) (proxy : Option AccountName)
  | accountWitnessVote (account witness : AccountName) (approve : Bool)
  | declineVotingRights (account : AccountName) (decline : Bool)
  | processDeclineVotingRights
  | gainVesting (account : AccountName) (shares : Int)
  | depositVests (account : AccountName) (shares : Int)
  | withdrawVests (account : AccountName) (shares leaving : Int)
  | clearNullVesting (emptied : Bool)
  | accountCreate (name : AccountName)
  | witnessUpdate (owner : AccountName)
  | applyHardfork
  | advance (time : Nat)

namespace Electorate

/-- Make a step. -/
def apply (step : VotingStep) (s : Electorate) : Except String Electorate :=
  match step with
  | .accountWitnessProxy account proxy => s.accountWitnessProxy account proxy
  | .accountWitnessVote account witness approve => s.accountWitnessVote account witness approve
  | .declineVotingRights account decline => s.declineVotingRights account decline
  | .processDeclineVotingRights => s.processDeclineVotingRights
  | .gainVesting account shares => s.gainVesting account shares
  | .depositVests account shares => s.depositVests account shares
  | .withdrawVests account shares leaving => s.withdrawVests account shares leaving
  | .clearNullVesting emptied => s.clearNullVesting emptied
  | .accountCreate name => s.accountCreate name
  | .witnessUpdate owner => s.witnessUpdate owner
  | .applyHardfork => s.applyHardfork
  | .advance time => do
    ensure (s.time < time) "blocks have increasing times"
    .ok { s with time := time }

/-- The electorate after a step, which stays as it was if the step throws. -/
def afterStep (s : Electorate) (step : VotingStep) : Electorate :=
  match s.apply step with
  | .ok s' => s'
  | .error _ => s

/-- The electorate after a sequence of steps. -/
def run (steps : List VotingStep) (s : Electorate) : Electorate := steps.foldl afterStep s

end Electorate

end Freezone.Chain.Voting
