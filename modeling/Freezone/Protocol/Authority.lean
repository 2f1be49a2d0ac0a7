import Freezone.Core.Table

/-!
# Authorities and signatures

An authority is a threshold over the weights of keys and of accounts, whose own
authority counts in turn. `sign_state` searches the graph of authorities for the
keys at hand, down to a depth, and remembers the accounts that it approved.
-/

namespace Freezone.Protocol

/-- `authority`, over the types of keys and of account names. -/
structure Authority (κ α : Type) where
  weightThreshold : Nat
  accountAuths : List (α × Nat)
  keyAuths : List (κ × Nat)

/-- The limits of a search, `max_recursion`, `max_membership` and `max_account_auths`. -/
structure SignLimits where
  maxRecursion : Nat
  maxMembership : Nat
  maxAccountAuths : Nat

/-- The levels until a 32-bit depth that counts up is `max_recursion`. -/
def SignLimits.levels (limits : SignLimits) (depth : Nat) : Nat :=
  if depth ≤ limits.maxRecursion then limits.maxRecursion - depth
  else limits.maxRecursion + 2 ^ 32 - depth

/-- `sign_state`. -/
structure SignState (κ α : Type) where
  getActive : α → Authority κ α
  availableKeys : List κ
  /-- The provided keys, each with whether it has been used. -/
  providedSignatures : Table κ Bool
  approvedBy : List α
  limits : SignLimits

namespace SignState

variable {κ α : Type} [DecidableEq κ] [DecidableEq α]

/-- The constructor of `sign_state`; the name is that of the account `temp`. -/
def make (temp : α) (sigs : List κ) (getActive : α → Authority κ α) (keys : List κ)
    (limits : SignLimits) : SignState κ α where
  getActive := getActive
  availableKeys := keys
  providedSignatures := sigs.foldl (fun t k => (t.insert k false).getD t) .empty
  approvedBy := [temp]
  limits := limits

/-- `approved_by.insert`. -/
def approve (a : α) (s : SignState κ α) : SignState κ α :=
  { s with approvedBy := a :: s.approvedBy }

/-- A state as `verify_authority` prepares it, with the accounts that have approved. -/
def prepare (temp : α) (sigs : List κ) (getActive : α → Authority κ α) (keys : List κ)
    (limits : SignLimits) (approvals : List α) : SignState κ α :=
  approvals.foldl (fun s a => s.approve a) (make temp sigs getActive keys limits)

def signedBy (k : κ) (s : SignState κ α) : Bool × SignState κ α :=
  match s.providedSignatures.find? k with
  | none =>
    if k ∈ s.availableKeys then
      (true, { s with
        providedSignatures := (s.providedSignatures.insert k true).getD s.providedSignatures })
    else (false, s)
  | some _ => (true, { s with providedSignatures := s.providedSignatures.set k true })

/-- The limit on the members of an authority is reached. -/
def Exhausted (s : SignState κ α) (membership : Nat) : Prop :=
  0 < s.limits.maxMembership ∧ s.limits.maxMembership ≤ membership

instance (s : SignState κ α) (membership : Nat) : Decidable (s.Exhausted membership) :=
  inferInstanceAs (Decidable (_ ∧ _))

/-- The total weight after an entry that counts or does not, in 32 bits. -/
def addWeight (counts : Bool) (totalWeight w : Nat) : Nat :=
  if counts then (totalWeight + w) % 2 ^ 32 else totalWeight

/-- Where the loop over the keys of an authority ends: it returned, or it went through them. -/
inductive KeysDone
  | returned (accepted : Bool)
  | passed (totalWeight membership : Nat)

/-- The loop over the keys of an authority. -/
def checkKeys (threshold : Nat) :
    List (κ × Nat) → Nat → Nat → SignState κ α → KeysDone × SignState κ α
  | [], totalWeight, membership, s => (.passed totalWeight membership, s)
  | (k, w) :: rest, totalWeight, membership, s =>
    let (signed, s) := s.signedBy k
    let totalWeight := addWeight signed totalWeight w
    if signed ∧ threshold ≤ totalWeight then (.returned true, s)
    else if s.Exhausted (membership + 1) then (.returned false, s)
    else checkKeys threshold rest totalWeight (membership + 1) s

/-- A check of an authority, with the count of accounts so far. -/
abbrev Check (κ α : Type) := Authority κ α → Nat → SignState κ α → Bool × Nat × SignState κ α

/-- What becomes of one account of an authority. -/
inductive Visit (κ α : Type)
  | skipped
  | refused
  | checked (accepted : Bool) (count : Nat) (s : SignState κ α)

/-- Look at an account: it may be approved already, or the depth or the number of accounts may be
exhausted. -/
def visit (recurse : Option (Check κ α)) (a : α) (count : Nat) (s : SignState κ α) : Visit κ α :=
  if a ∈ s.approvedBy then .checked true count s
  else match recurse with
    | none => .skipped
    | some check =>
      if 0 < s.limits.maxAccountAuths ∧ s.limits.maxAccountAuths ≤ count then .refused
      else match check (s.getActive a) (count + 1) s with
        | (true, count, s) => .checked true count (s.approve a)
        | (false, count, s) => .checked false count s

/-- The loop over the accounts of an authority. -/
def checkAccounts (threshold : Nat) (recurse : Option (Check κ α)) :
    List (α × Nat) → Nat → Nat → Nat → SignState κ α → Bool × Nat × SignState κ α
  | [], totalWeight, _, count, s => (decide (threshold ≤ totalWeight), count, s)
  | (a, w) :: rest, totalWeight, membership, count, s =>
    match visit recurse a count s with
    | .skipped => checkAccounts threshold recurse rest totalWeight membership count s
    | .refused => (false, count, s)
    | .checked accepted count s =>
      let totalWeight := addWeight accepted totalWeight w
      if accepted ∧ threshold ≤ totalWeight then (true, count, s)
      else if s.Exhausted (membership + 1) then (false, count, s)
      else checkAccounts threshold recurse rest totalWeight (membership + 1) count s

/-- One level of `check_authority_impl`. -/
def checkWith (recurse : Option (Check κ α)) : Check κ α := fun auth count s =>
  match s.checkKeys auth.weightThreshold auth.keyAuths 0 0 with
  | (.returned accepted, s) => (accepted, count, s)
  | (.passed totalWeight membership, s) =>
    checkAccounts auth.weightThreshold recurse auth.accountAuths totalWeight membership count s

/-- `check_authority_impl`, with the number of levels that are left until `depth` is
`max_recursion`. -/
def checkAuthorityImpl : Nat → Check κ α
  | 0 => checkWith none
  | levels + 1 => checkWith (some (checkAuthorityImpl levels))

/-- `check_authority` of an authority. -/
def checkAuthority (auth : Authority κ α) (depth accountAuthCount : Nat) (s : SignState κ α) :
    Bool × SignState κ α :=
  let result := s.checkAuthorityImpl (s.limits.levels depth) auth accountAuthCount
  (result.1, result.2.2)

/-- `check_authority` of an account. -/
def checkAuthorityOf (id : α) (s : SignState κ α) : Bool × SignState κ α :=
  if id ∈ s.approvedBy then (true, s) else s.checkAuthority (s.getActive id) 0 1

/-- `remove_unused_signatures`; the flag says that there were some. -/
def removeUnusedSignatures (s : SignState κ α) : Bool × SignState κ α :=
  let used := s.providedSignatures.restrict fun k => s.providedSignatures.find? k ≠ some false
  (decide (used.entries.length < s.providedSignatures.entries.length),
    { s with providedSignatures := used })

/-- The second check is made when the first one refuses. -/
def orElse (first second : SignState κ α → Bool × SignState κ α) (s : SignState κ α) :
    Bool × SignState κ α :=
  match first s with
  | (true, s) => (true, s)
  | (false, s) => second s

/-- Throw unless a check accepts. -/
def assertThat (check : SignState κ α → Bool × SignState κ α) (text : String)
    (s : SignState κ α) : Except String (SignState κ α) :=
  match check s with
  | (true, s) => .ok s
  | (false, _) => .error text

end SignState

/-- What the operations of a transaction require. -/
structure RequiredAuths (κ α : Type) where
  active : List α
  owner : List α
  posting : List α
  other : List (Authority κ α)

/-- The authorities of the accounts. -/
structure AuthorityGetters (κ α : Type) where
  active : α → Authority κ α
  owner : α → Authority κ α
  posting : α → Authority κ α

/-- The accounts that have approved beforehand. -/
structure Approvals (α : Type) where
  active : List α
  owner : List α
  posting : List α

section Verify

variable {κ α : Type} [DecidableEq κ] [DecidableEq α]

open SignState

/-- Throw if there are unused signatures. -/
def assertNoUnused (s : SignState κ α) : Except String Unit :=
  ensure (s.removeUnusedSignatures.1 = false) "Unnecessary signature(s) detected"

/-- `verify_authority` of a transaction that requires posting authorities. -/
def verifyPosting (temp : α) (required : RequiredAuths κ α) (sigs : List κ)
    (get : AuthorityGetters κ α) (limits : SignLimits) (approvals : Approvals α) :
    Except String Unit := do
  ensure (required.active = []) "required_active.size() == 0"
  ensure (required.owner = []) "required_owner.size() == 0"
  ensure (required.other.isEmpty = true) "other.size() == 0"
  let s := prepare temp sigs get.posting [] limits approvals.posting
  let s ← forEach (fun id => assertThat
    (orElse (checkAuthorityOf id) (orElse (checkAuthority (get.active id) 0 0)
      (checkAuthority (get.owner id) 0 0))) "Missing Posting Authority ${id}") required.posting s
  assertNoUnused s

/-- `verify_authority` of a transaction that requires none. -/
def verifyActive (temp : α) (required : RequiredAuths κ α) (sigs : List κ)
    (get : AuthorityGetters κ α) (limits : SignLimits) (approvals : Approvals α) :
    Except String Unit := do
  let s := prepare temp sigs get.active [] limits (approvals.active ++ approvals.owner)
  let s ← forEach (fun auth => assertThat (checkAuthority auth 0 0) "Missing Authority")
    required.other s
  let s ← forEach (fun id => assertThat
    (orElse (checkAuthorityOf id) (checkAuthority (get.owner id) 0 0))
    "Missing Active Authority ${id}") required.active s
  let s ← forEach (fun id => assertThat
    (orElse (fun s => (decide (id ∈ approvals.owner), s)) (checkAuthority (get.owner id) 0 0))
    "Missing Owner Authority ${id}") required.owner s
  assertNoUnused s

/-- `verify_authority`. -/
def verifyAuthority (temp : α) (required : RequiredAuths κ α) (sigs : List κ)
    (get : AuthorityGetters κ α) (limits : SignLimits) (approvals : Approvals α) :
    Except String Unit :=
  if required.posting ≠ [] then verifyPosting temp required sigs get limits approvals
  else verifyActive temp required sigs get limits approvals

end Verify

end Freezone.Protocol
