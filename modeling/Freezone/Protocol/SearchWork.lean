import Freezone.Protocol.Authority

/-!
# The work of a search

A search of the graph of authorities fetches no more accounts than its counter allows. The
entries of the authorities that it fetches are examined one after the other, of each as
many as the limit on members lets through: but for those at the depth limit, where
accounts are passed over without being counted as members.
-/

namespace Freezone.Protocol

/-- The keys and accounts of an authority. -/
def Authority.size {κ α : Type} (auth : Authority κ α) : Nat :=
  auth.keyAuths.length + auth.accountAuths.length

namespace SignState

variable {κ α : Type} {get : α → Authority κ α} {limits : SignLimits} {s : SignState κ α}

/-- The number of entries that a check examines. -/
abbrev Work (κ α : Type) := Authority κ α → Nat → SignState κ α → Nat

/-- A condition on the authorities that a search comes to. -/
abbrev Condition (κ α : Type) := Authority κ α → Nat → SignState κ α → Bool

/-- The state of a search in a graph, within limits. -/
def In (get : α → Authority κ α) (limits : SignLimits) (s : SignState κ α) : Prop :=
  s.getActive = get ∧ s.limits = limits

/-- From one count to the next so many accounts were fetched, and if a condition is met, work was
done for `max_membership` entries of each of them and so many others. -/
structure Spends (get : α → Authority κ α) (limits : SignLimits) (condition : Bool)
    (count entries work : Nat) (count' : Nat) (s' : SignState κ α) : Prop where
  state : s'.In get limits
  count_le : count ≤ count'
  le_max : count' ≤ max count limits.maxAccountAuths
  work_le : condition → work ≤ entries + limits.maxMembership * (count' - count)

/-- A check that, under a condition, spends what its counter says. -/
def Frugal (get : α → Authority κ α) (limits : SignLimits) (check : Check κ α)
    (condition : Condition κ α) (work : Work κ α) : Prop :=
  ∀ auth count s, s.In get limits →
    let r := check auth count s
    Spends get limits (condition auth count s) count limits.maxMembership (work auth count s)
      r.2.1 r.2.2

/-- What a loop over accounts recurses to: nothing at the depth limit, else a frugal check. -/
def FrugalBelow (get : α → Authority κ α) (limits : SignLimits) :
    Option (Check κ α) → Option (Condition κ α) → Option (Work κ α) → Prop
  | none, none, none => True
  | some check, some below, some work => Frugal get limits check below work
  | _, _, _ => False

section Keys

variable [DecidableEq κ]

/-- The keys that the loop over them examines. -/
def keysExamined (threshold : Nat) : List (κ × Nat) → Nat → Nat → SignState κ α → Nat
  | [], _, _, _ => 0
  | (k, w) :: rest, totalWeight, membership, s =>
    let (signed, s) := s.signedBy k
    let totalWeight := addWeight signed totalWeight w
    if signed ∧ threshold ≤ totalWeight then 1
    else if s.Exhausted (membership + 1) then 1
    else keysExamined threshold rest totalWeight (membership + 1) s + 1

/-- A look at a key changes neither the accounts nor the limits. -/
theorem signedBy_in (h : s.In get limits) (k : κ) : (s.signedBy k).2.In get limits := by
  unfold signedBy
  split
  · split <;> exact h
  · exact h

/-- The loop over the keys examines no more than the limit on members, and counts what it passes. -/
theorem checkKeys_in (hM : 0 < limits.maxMembership) (h : s.In get limits)
    (threshold total membership : Nat) (hroom : membership < limits.maxMembership)
    (l : List (κ × Nat)) : (s.checkKeys threshold l total membership).2.In get limits ∧
      keysExamined threshold l total membership s ≤ limits.maxMembership - membership ∧
      ∀ total' membership', (s.checkKeys threshold l total membership).1 =
        .passed total' membership' → membership' < limits.maxMembership ∧
          keysExamined threshold l total membership s + membership = membership' ∧
          keysExamined threshold l total membership s = l.length := by
  induction l generalizing s total membership with
  | nil =>
    refine ⟨h, Nat.zero_le _, fun total' membership' hpassed => ?_⟩
    cases hpassed
    exact ⟨hroom, Nat.zero_add _, rfl⟩
  | cons e l ih =>
    have hs := signedBy_in h e.1
    simp only [checkKeys, keysExamined, List.length_cons]
    split_ifs with hdone hfull
    · exact ⟨hs, by omega, fun _ _ hpassed => by cases hpassed⟩
    · exact ⟨hs, by omega, fun _ _ hpassed => by cases hpassed⟩
    · rw [Exhausted, hs.2] at hfull
      obtain ⟨hin, hle, hpassed⟩ :=
        ih hs (addWeight (s.signedBy e.1).1 total e.2) (membership + 1) (by omega)
      refine ⟨hin, by omega, fun total' membership' hp => ?_⟩
      obtain ⟨hlt, hcount, hlength⟩ := hpassed total' membership' hp
      exact ⟨hlt, by omega, by omega⟩

end Keys

variable [DecidableEq α]

/-- The entries that are examined for one account. -/
def examinedBelow (work : Option (Work κ α)) (a : α) (count : Nat) (s : SignState κ α) : Nat :=
  if a ∈ s.approvedBy then 0
  else match work with
    | none => 0
    | some work =>
      if 0 < s.limits.maxAccountAuths ∧ s.limits.maxAccountAuths ≤ count then 0
      else work (s.getActive a) (count + 1) s

/-- The accounts that the loop over them examines, with the entries below each. -/
def accountsExamined (threshold : Nat) (recurse : Option (Check κ α)) (work : Option (Work κ α)) :
    List (α × Nat) → Nat → Nat → Nat → SignState κ α → Nat
  | [], _, _, _, _ => 0
  | (a, w) :: rest, totalWeight, membership, count, s =>
    1 + examinedBelow work a count s + match visit recurse a count s with
    | .skipped => accountsExamined threshold recurse work rest totalWeight membership count s
    | .refused => 0
    | .checked accepted count s =>
      let totalWeight := addWeight accepted totalWeight w
      if accepted ∧ threshold ≤ totalWeight then 0
      else if s.Exhausted (membership + 1) then 0
      else accountsExamined threshold recurse work rest totalWeight (membership + 1) count s

/-- The condition on the authority of one account, if it is fetched. -/
def restrainedBelow (below : Option (Condition κ α)) (a : α) (count : Nat) (s : SignState κ α) :
    Bool :=
  if a ∈ s.approvedBy then true
  else match below with
    | none => true
    | some below =>
      if 0 < s.limits.maxAccountAuths ∧ s.limits.maxAccountAuths ≤ count then true
      else below (s.getActive a) (count + 1) s

/-- The loop over the accounts passes over one only if the authority has no more entries than the
limit on members. -/
def restrainedAccounts (threshold size : Nat) (recurse : Option (Check κ α))
    (below : Option (Condition κ α)) : List (α × Nat) → Nat → Nat → Nat → SignState κ α → Bool
  | [], _, _, _, _ => true
  | (a, w) :: rest, totalWeight, membership, count, s =>
    restrainedBelow below a count s && match visit recurse a count s with
    | .skipped => decide (size ≤ s.limits.maxMembership) &&
        restrainedAccounts threshold size recurse below rest totalWeight membership count s
    | .refused => true
    | .checked accepted count s =>
      let totalWeight := addWeight accepted totalWeight w
      if accepted ∧ threshold ≤ totalWeight then true
      else if s.Exhausted (membership + 1) then true
      else restrainedAccounts threshold size recurse below rest totalWeight (membership + 1) count s

section Levels

variable [DecidableEq κ]

/-- The entries that one level of `check_authority_impl` and those below it examine. -/
def examinedWith (recurse : Option (Check κ α)) (work : Option (Work κ α)) : Work κ α :=
  fun auth count s => keysExamined auth.weightThreshold auth.keyAuths 0 0 s +
    match s.checkKeys auth.weightThreshold auth.keyAuths 0 0 with
    | (.returned _, _) => 0
    | (.passed totalWeight membership, s) => accountsExamined auth.weightThreshold recurse work
        auth.accountAuths totalWeight membership count s

/-- The entries that `check_authority_impl` examines. -/
def examined : Nat → Work κ α
  | 0 => examinedWith none none
  | levels + 1 => examinedWith (some (checkAuthorityImpl levels)) (some (examined levels))

/-- The condition on one level of a search and those below it. -/
def restrainedWith (recurse : Option (Check κ α)) (below : Option (Condition κ α)) :
    Condition κ α := fun auth count s =>
  match s.checkKeys auth.weightThreshold auth.keyAuths 0 0 with
  | (.returned _, _) => true
  | (.passed totalWeight membership, s) => restrainedAccounts auth.weightThreshold auth.size recurse
      below auth.accountAuths totalWeight membership count s

/-- Wherever a search passes over an account at the depth limit, the authority that the account
belongs to has at most `max_membership` keys and accounts. -/
def restrained : Nat → Condition κ α
  | 0 => restrainedWith none none
  | levels + 1 => restrainedWith (some (checkAuthorityImpl levels)) (some (restrained levels))

end Levels

section Graph

variable {recurse : Option (Check κ α)} {below : Option (Condition κ α)} {work : Option (Work κ α)}
  (hA : 0 < limits.maxAccountAuths) (hc : FrugalBelow get limits recurse below work)
include hA hc

/-- The fetch of an account is paid by the counter. -/
theorem visit_spends (h : s.In get limits) (a : α) (count : Nat) :
    match visit recurse a count s with
    | .skipped => examinedBelow work a count s = 0
    | .refused => examinedBelow work a count s = 0
    | .checked _ count' s' => Spends get limits (restrainedBelow below a count s) count 0
        (examinedBelow work a count s) count' s' := by
  unfold visit examinedBelow restrainedBelow
  by_cases ha : a ∈ s.approvedBy
  · simp only [if_pos ha]
    exact ⟨h, le_rfl, le_max_left _ _, fun _ => Nat.zero_le _⟩
  simp only [if_neg ha]
  obtain ⟨rfl, rfl⟩ := h
  match recurse, below, work, hc with
  | none, none, none, _ => rfl
  | some check, some below, some work, hc =>
    by_cases hfull : 0 < s.limits.maxAccountAuths ∧ s.limits.maxAccountAuths ≤ count
    · simp only [if_pos hfull]
    simp only [if_neg hfull]
    obtain ⟨hs, hle, hmax, hwork⟩ := hc (s.getActive a) (count + 1) s ⟨rfl, rfl⟩
    rcases hr : check (s.getActive a) (count + 1) s with ⟨_ | _, c, t⟩ <;>
      simp only [hr] at hs hle hmax hwork ⊢
    all_goals
      refine ⟨hs, by omega, by omega, fun hbelow => ?_⟩
      have hspent := hwork hbelow
      obtain ⟨n, rfl⟩ := Nat.exists_eq_add_of_le hle
      rw [Nat.add_sub_cancel_left] at hspent
      rw [Nat.add_assoc, Nat.add_sub_cancel_left, Nat.mul_add, Nat.mul_one]
      omega

/-- The loop over the accounts examines as many as the limit on members lets through, or all of
them where none must be passed over, and the entries of those it fetches. -/
theorem checkAccounts_spends (h : s.In get limits) (threshold size total membership : Nat)
    (hroom : membership < limits.maxMembership) (count : Nat) (l : List (α × Nat)) :
    let r := checkAccounts threshold recurse l total membership count s
    Spends get limits
      (restrainedAccounts threshold size recurse below l total membership count s) count
      (if size ≤ limits.maxMembership then l.length else limits.maxMembership - membership)
      (accountsExamined threshold recurse work l total membership count s) r.2.1 r.2.2 := by
  induction l generalizing s total membership count with
  | nil => exact ⟨h, le_rfl, le_max_left _ _, fun _ => Nat.zero_le _⟩
  | cons e l ih =>
    have hv := visit_spends hA hc h e.1 count
    simp only [checkAccounts, accountsExamined, restrainedAccounts, List.length_cons]
    cases hr : visit recurse e.1 count s with
    | skipped =>
      simp only [hr] at hv ⊢
      obtain ⟨hs, hle, hmax, hwork⟩ := ih h total membership hroom count
      refine ⟨hs, hle, hmax, fun hres => ?_⟩
      rw [Bool.and_eq_true, Bool.and_eq_true, decide_eq_true_iff, h.2] at hres
      have hrest := hwork hres.2.2
      rw [if_pos hres.2.1] at hrest ⊢
      omega
    | refused =>
      simp only [hr] at hv ⊢
      refine ⟨h, le_rfl, le_max_left _ _, fun _ => ?_⟩
      split_ifs <;> omega
    | checked accepted c t =>
      simp only [hr] at hv ⊢
      obtain ⟨hs, hle, hmax, hwork⟩ := hv
      split_ifs with hdone hsize hfull hsize hsize
      iterate 4
        refine ⟨hs, hle, hmax, fun hres => ?_⟩
        rw [Bool.and_true] at hres
        have hfirst := hwork hres
        dsimp only
        omega
      all_goals
        rw [Exhausted, hs.2] at hfull
        obtain ⟨hs', hle', hmax', hwork'⟩ :=
          ih hs (addWeight accepted total e.2) (membership + 1) (by omega) c
        refine ⟨hs', hle.trans hle', hmax'.trans (max_le hmax (le_max_right _ _)), fun hres => ?_⟩
        rw [Bool.and_eq_true] at hres
        rw [← Nat.sub_add_sub_cancel hle' hle, Nat.mul_add]
        have hfirst := hwork hres.1
        have hrest := hwork' hres.2
        split_ifs at hrest
        omega

end Graph

variable [DecidableEq κ]

/-- One level examines no more than the limits allow if the next one does not. -/
theorem checkWith_frugal {recurse : Option (Check κ α)} {below : Option (Condition κ α)}
    {work : Option (Work κ α)} (hA : 0 < limits.maxAccountAuths)
    (hc : FrugalBelow get limits recurse below work) (hM : 0 < limits.maxMembership) :
    Frugal get limits (checkWith recurse) (restrainedWith recurse below)
      (examinedWith recurse work) := by
  intro auth count s h
  obtain ⟨hs, hkeys, hpassed⟩ := checkKeys_in hM h auth.weightThreshold 0 0 hM auth.keyAuths
  simp only [checkWith, examinedWith, restrainedWith]
  rcases hr : s.checkKeys auth.weightThreshold auth.keyAuths 0 0 with
    ⟨_ | ⟨total, membership⟩, t⟩ <;> simp only [hr] at hs hpassed ⊢
  · exact ⟨hs, le_rfl, le_max_left _ _, fun _ => by omega⟩
  · obtain ⟨hroom, hcount, hlength⟩ := hpassed total membership rfl
    obtain ⟨hs', hle, hmax, hwork⟩ := checkAccounts_spends hA hc hs auth.weightThreshold
      auth.size total membership hroom count auth.accountAuths
    refine ⟨hs', hle, hmax, fun hres => ?_⟩
    have hspent := hwork hres
    unfold Authority.size at hspent
    split_ifs at hspent <;> omega

/-- Every level of the search is frugal. -/
theorem checkAuthorityImpl_frugal (hA : 0 < limits.maxAccountAuths) (hM : 0 < limits.maxMembership)
    (levels : Nat) :
    Frugal get limits (checkAuthorityImpl levels) (restrained levels) (examined levels) := by
  induction levels with
  | zero => exact checkWith_frugal hA trivial hM
  | succ levels ih => exact checkWith_frugal hA ih hM

/-- The accounts that `check_authority` of an authority fetches: it counts each. -/
def fetched (levels : Nat) : Work κ α := fun auth count s =>
  (s.checkAuthorityImpl levels auth count).2.1 - count

/-- The accounts that `check_authority` of an account fetches, itself first. -/
def fetchedOf (id : α) (s : SignState κ α) : Nat :=
  if id ∈ s.approvedBy then 0 else 1 + fetched (s.limits.levels 0) (s.getActive id) 1 s

/-- The entries that `check_authority` of an account examines. -/
def examinedOf (id : α) (s : SignState κ α) : Nat :=
  if id ∈ s.approvedBy then 0 else examined (s.limits.levels 0) (s.getActive id) 1 s

/-- One search fetches at most `max_account_auths` accounts, and where it passes over no account of
an authority with more than `max_membership` entries it examines at most so many entries for each of
them and its own. -/
theorem examined_le (s : SignState κ α) (hA : 0 < s.limits.maxAccountAuths)
    (hM : 0 < s.limits.maxMembership) :
    let A := s.limits.maxAccountAuths
    let M := s.limits.maxMembership
    (∀ auth depth count, fetched (s.limits.levels depth) auth count s ≤ A) ∧
    (∀ id, s.fetchedOf id ≤ A) ∧
    (∀ auth depth count, restrained (s.limits.levels depth) auth count s →
      examined (s.limits.levels depth) auth count s ≤ (A + 1) * M) ∧
    ∀ id, restrained (s.limits.levels 0) (s.getActive id) 1 s → s.examinedOf id ≤ (A + 1) * M := by
  intro A M
  have hrun (auth depth count) :=
    checkAuthorityImpl_frugal hA hM (s.limits.levels depth) auth count s ⟨rfl, rfl⟩
  have hfetched (auth depth count) : fetched (s.limits.levels depth) auth count s ≤ A := by
    have := (hrun auth depth count).le_max
    unfold fetched
    omega
  have hexamined (auth depth count) (hres : restrained (s.limits.levels depth) auth count s) :
      examined (s.limits.levels depth) auth count s ≤ (A + 1) * M :=
    calc examined (s.limits.levels depth) auth count s
      _ ≤ M + M * fetched (s.limits.levels depth) auth count s :=
          (hrun auth depth count).work_le hres
      _ ≤ M + M * A := Nat.add_le_add_left (Nat.mul_le_mul_left M (hfetched auth depth count)) M
      _ = (A + 1) * M := by rw [Nat.add_mul, Nat.one_mul, Nat.mul_comm A, Nat.add_comm]
  refine ⟨hfetched, fun id => ?_, hexamined, fun id hres => ?_⟩
  · have := (hrun (s.getActive id) 0 1).le_max
    unfold fetchedOf fetched
    split_ifs <;> omega
  · unfold examinedOf
    split_ifs
    · exact Nat.zero_le _
    · exact hexamined _ 0 1 hres

/-- A state without keys where account 0 has the authority of the accounts of a list. -/
def ofAccounts (l : List Nat) : SignState Nat Nat :=
  { getActive := fun a => ⟨1, if a = 0 then l.map (·, 1) else [], []⟩
    availableKeys := [], providedSignatures := Table.empty, approvedBy := [], limits := ⟨1, 1, 1⟩ }

/-- With all limits at one, the one account that the fetched one names is passed over. -/
theorem examined_le_ofAccounts :
    examined ((ofAccounts [1]).limits.levels 0) ⟨1, [(0, 1)], []⟩ 0 (ofAccounts [1]) ≤
      (1 + 1) * 1 :=
  (examined_le (ofAccounts [1]) (by decide) (by decide)).2.2.1 ⟨1, [(0, 1)], []⟩ 0 0 (by decide)

/-- With all limits at one, the three accounts that the fetched one names are all passed over. -/
theorem examined_ofAccounts :
    (1 + 1) * 1 < examined ((ofAccounts [1, 2, 3]).limits.levels 0) ⟨1, [(0, 1)], []⟩ 0
      (ofAccounts [1, 2, 3]) := by decide

end SignState

end Freezone.Protocol
