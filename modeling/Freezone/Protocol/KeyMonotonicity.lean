import Freezone.Protocol.Authorization
import Freezone.Protocol.SearchWork

/-!
# More keys

Of every authority a search examines as many members as the limit on them lets
through. Unless another limit diverts it, it accepts exactly what the keys satisfy
within that limit, and so more keys never turn an accepted check into a refused one.
A limit on the depth can do that: an account that a key approves at once is not
searched, so that an account below it is not in the cache when the search meets it
again where it may go no deeper.
-/

namespace Freezone.Protocol

open Weights List

namespace SignLimits

/-- The members of a list that are examined after a number of others. -/
def window {ι : Type} (limits : SignLimits) (membership : Nat) (l : List ι) : List ι :=
  if limits.maxMembership = 0 then l else l.take (limits.maxMembership - membership)

/-- The limit on the members ends the examination after so many. -/
def Ends (limits : SignLimits) (membership : Nat) : Prop :=
  0 < limits.maxMembership ∧ limits.maxMembership ≤ membership

/-- All members of an authority with so many are examined, and the threshold is compared. The
examination of the last member that the limit allows ends without a comparison, which only matters
at threshold 0. -/
def HasRoom (limits : SignLimits) (threshold members : Nat) : Prop :=
  limits.maxMembership = 0 ∨ members < limits.maxMembership ∨
    members = limits.maxMembership ∧ 0 < threshold

instance (limits : SignLimits) (threshold members : Nat) :
    Decidable (limits.HasRoom threshold members) :=
  inferInstanceAs (Decidable (_ ∨ _ ∨ _ ∧ _))

variable {ι : Type} {limits : SignLimits} {membership : Nat} {l : List ι}

/-- One more member is examined while the limit is not reached. -/
theorem window_cons (h : ¬ limits.Ends membership) (e : ι) (l : List ι) :
    limits.window membership (e :: l) = e :: limits.window (membership + 1) l := by
  unfold Ends at h
  unfold window
  split_ifs
  · rfl
  · have hsucc : limits.maxMembership - membership =
        limits.maxMembership - (membership + 1) + 1 := by omega
    rw [hsucc, take_succ_cons]

/-- No member is examined once the limit is reached. -/
theorem window_of_ends (h : limits.Ends membership) (l : List ι) :
    limits.window membership l = [] := by
  rw [window, if_neg h.1.ne', Nat.sub_eq_zero_of_le h.2, take_zero]

/-- A list is examined as a whole if the limit lets it through. -/
theorem window_of_le
    (h : limits.maxMembership = 0 ∨ membership + l.length ≤ limits.maxMembership) :
    limits.window membership l = l := by
  unfold window
  split_ifs with hM
  · rfl
  · exact take_of_length_le (by omega)

end SignLimits

section Abstract

variable {κ α : Type}

/-- The examined members reach the threshold of an authority; where the examination ends at the
limit on members, one of them has to count. -/
def Authority.ReachedWithin (limits : SignLimits) (keys : Set κ) (A : Set α)
    (auth : Authority κ α) : Prop :=
  auth.weightThreshold ≤ weight keys (limits.window 0 auth.keyAuths) +
      weight A (limits.window auth.keyAuths.length auth.accountAuths) ∧
    (limits.Ends auth.size → 0 < auth.weightThreshold ∨
      (∃ e ∈ limits.window 0 auth.keyAuths, e.1 ∈ keys) ∨
      ∃ e ∈ limits.window auth.keyAuths.length auth.accountAuths, e.1 ∈ A)

/-- More keys and accounts reach what fewer reach. -/
theorem Authority.ReachedWithin.mono {limits : SignLimits} {auth : Authority κ α}
    {keys keys' : Set κ} {A A' : Set α} (h : auth.ReachedWithin limits keys A) (hk : keys ⊆ keys')
    (hA : A ⊆ A') : auth.ReachedWithin limits keys' A' := by
  refine ⟨h.1.trans (Nat.add_le_add (weight_mono hk _) (weight_mono hA _)), fun hends => ?_⟩
  rcases h.2 hends with hpos | ⟨e, he, hmem⟩ | ⟨e, he, hmem⟩
  · exact .inl hpos
  · exact .inr (.inl ⟨e, he, hk hmem⟩)
  · exact .inr (.inr ⟨e, he, hA hmem⟩)

/-- The accounts approved beforehand and those whose authority a set reaches within the limit. -/
def supportWithin (limits : SignLimits) (get : α → Authority κ α) (keys : Set κ) (base : Set α) :
    Set α →o Set α where
  toFun A := base ∪ {a | (get a).ReachedWithin limits keys A}
  monotone' _ _ h := Set.union_subset_union_right _ fun _ ha =>
    Authority.ReachedWithin.mono ha subset_rfl h

/-- The accounts that the keys authorize within the limit on members. -/
def authorizedWithin (limits : SignLimits) (get : α → Authority κ α) (keys : Set κ)
    (base : Set α) : Set α :=
  (supportWithin limits get keys base).lfp

/-- An account is approved beforehand or its authority is reached within the limit. -/
theorem mem_authorizedWithin {limits : SignLimits} {get : α → Authority κ α} {keys : Set κ}
    {base : Set α} {a : α} : a ∈ authorizedWithin limits get keys base ↔
      a ∈ base ∨ (get a).ReachedWithin limits keys (authorizedWithin limits get keys base) := by
  have h := (supportWithin limits get keys base).map_lfp
  conv_lhs => rw [authorizedWithin, ← h]
  exact Iff.rfl

/-- More keys authorize more accounts. -/
theorem authorizedWithin_mono (limits : SignLimits) (get : α → Authority κ α) {keys keys' : Set κ}
    (h : keys ⊆ keys') (base : Set α) :
    authorizedWithin limits get keys base ⊆ authorizedWithin limits get keys' base := by
  refine OrderHom.lfp.monotone fun A => ?_
  exact Set.union_subset_union_right _ fun a ha =>
    Authority.ReachedWithin.mono ha h subset_rfl

end Abstract

namespace SignState

variable {κ α : Type}

/-- The approvals are added in front of each other. -/
theorem foldl_approve (l : List α) (s : SignState κ α) :
    l.foldl (fun s a => s.approve a) s = { s with approvedBy := l.reverse ++ s.approvedBy } := by
  induction l generalizing s with
  | nil => rfl
  | cons a l ih =>
    rw [foldl_cons, ih, approve, reverse_cons, append_assoc, singleton_append]

variable [DecidableEq κ]

/-- Of a strict search, the sum of the weights does not exceed 32 bits. -/
def sumClear (strict counts : Bool) (totalWeight w : Nat) : Bool :=
  !(strict && counts) || decide (totalWeight + w < 2 ^ 32)

/-- The sums of the weights of keys do not exceed 32 bits, of a strict search. -/
def keysClear (strict : Bool) (threshold : Nat) :
    List (κ × Nat) → Nat → Nat → SignState κ α → Bool
  | [], _, _, _ => true
  | (k, w) :: rest, totalWeight, membership, s =>
    let (signed, s) := s.signedBy k
    sumClear strict signed totalWeight w &&
      if signed ∧ threshold ≤ addWeight signed totalWeight w then true
      else if s.Exhausted (membership + 1) then true
      else keysClear strict threshold rest (addWeight signed totalWeight w) (membership + 1) s

variable {strict : Bool} {keys : Set κ} {A base : Set α} {get : α → Authority κ α}
  {limits : SignLimits} {s : SignState κ α} {threshold membership total : Nat}

/-- The state knows exactly the keys, and its cache is between the accounts approved beforehand and
a set. -/
structure Sees (limits : SignLimits) (get : α → Authority κ α) (keys : Set κ) (base A : Set α)
    (s : SignState κ α) : Prop where
  limits_eq : s.limits = limits
  get_eq : s.getActive = get
  known : ∀ k, (s.providedSignatures.find? k).isSome ∨ k ∈ s.availableKeys ↔ k ∈ keys
  approved : ∀ a ∈ base, a ∈ s.approvedBy
  justified : ∀ a ∈ s.approvedBy, a ∈ A

theorem Sees.approve (h : s.Sees limits get keys base A) {a : α} (ha : a ∈ A) :
    (s.approve a).Sees limits get keys base A :=
  { h with
    approved := fun b hb => mem_cons_of_mem _ (h.approved b hb)
    justified := fun b hb => by
      rcases mem_cons.mp hb with rfl | hb
      · exact ha
      · exact h.justified b hb }

/-- Exactly the keys count as signed. -/
theorem Sees.signedBy (h : s.Sees limits get keys base A) (k : κ) :
    (s.signedBy k).2.Sees limits get keys base A ∧ ((s.signedBy k).1 = true ↔ k ∈ keys) := by
  unfold SignState.signedBy
  split
  · rename_i hnone
    split_ifs with hav
    · have hk : k ∈ keys := (h.known k).mp (.inr hav)
      refine ⟨{ h with known := fun k' => ?_ }, fun _ => hk, fun _ => rfl⟩
      rw [← h.known]
      cases hins : s.providedSignatures.insert k true with
      | none => rfl
      | some t =>
        rw [Option.getD_some, Table.find?_insert hins]
        by_cases he : k' = k <;> simp [he, hav]
    · refine ⟨h, (fun hf => by cases hf), fun hk => ?_⟩
      rcases (h.known k).mpr hk with hp | ha
      · rw [hnone] at hp
        cases hp
      · exact absurd ha hav
  · rename_i b hsome
    have hk : k ∈ keys := (h.known k).mp (.inl (by rw [hsome]; rfl))
    refine ⟨{ h with known := fun k' => ?_ }, fun _ => hk, fun _ => rfl⟩
    rw [← h.known, Table.find?_set hsome]
    by_cases he : k' = k <;> simp [he, hsome]

section Sums

variable {ι : Type} {B : Set ι} {i : ι} {counts : Bool} {w : Nat} {l : List (ι × Nat)}

/-- The members of a list do not reach the threshold, or none of them counts. -/
def Fails (B : Set ι) (threshold total : Nat) (l : List (ι × Nat)) : Prop :=
  total + weight B l < threshold ∨ ∀ e ∈ l, e.1 ∉ B

theorem weight_eq_zero (h : ∀ e ∈ l, e.1 ∉ B) : weight B l = 0 := by
  induction l with
  | nil => rfl
  | cons e l ih =>
    rw [weight_cons_of_not_mem (h e mem_cons_self)]
    exact ih fun e he => h e (mem_cons_of_mem _ he)

/-- The weight counted after an entry that counts exactly if it is in a set. -/
theorem addWeight_eq (h : counts = true ↔ i ∈ B) (hlt : sumClear true counts total w = true)
    (l : List (ι × Nat)) :
    addWeight counts total w + weight B l = total + weight B ((i, w) :: l) := by
  unfold addWeight
  cases counts with
  | true =>
    have hsum : total + w < 2 ^ 32 := of_decide_eq_true hlt
    rw [if_pos rfl, weight_cons_of_mem (h.mp rfl), Nat.mod_eq_of_lt hsum]
    omega
  | false =>
    have hi : i ∉ B := fun hi => Bool.false_ne_true (h.mpr hi)
    rw [if_neg Bool.false_ne_true, weight_cons_of_not_mem hi]

/-- A member that does not complete the threshold leaves the list failing. -/
theorem Fails.cons (h : counts = true ↔ i ∈ B) (hlt : sumClear true counts total w = true)
    (hnot : ¬ (counts = true ∧ threshold ≤ addWeight counts total w))
    (hl : Fails B threshold (addWeight counts total w) l) :
    Fails B threshold total ((i, w) :: l) := by
  have heq := addWeight_eq h hlt l
  rcases hl with hl | hl
  · exact .inl (heq ▸ hl)
  cases counts with
  | true =>
    have hbelow : addWeight true total w < threshold := not_le.mp fun hle => hnot ⟨rfl, hle⟩
    rw [weight_eq_zero hl, Nat.add_zero] at heq
    exact .inl (heq ▸ hbelow)
  | false =>
    refine .inr fun e he => ?_
    rcases mem_cons.mp he with rfl | he
    · exact fun hi => Bool.false_ne_true (h.mpr hi)
    · exact hl e he

end Sums

/-- What the end of the loop over the keys says about them. -/
def KeysDone.Tells (limits : SignLimits) (strict : Bool) (keys : Set κ)
    (threshold total membership : Nat) (l : List (κ × Nat)) : KeysDone → Prop
  | .returned true => threshold ≤ total + weight keys (limits.window membership l) ∧
    ∃ e ∈ limits.window membership l, e.1 ∈ keys
  | .returned false => limits.Ends (membership + l.length) ∧
    (strict = true → Fails keys threshold total (limits.window membership l))
  | .passed total' membership' => membership' = membership + l.length ∧
    ¬ limits.Ends membership' ∧ total' ≤ total + weight keys l ∧
    (strict = true → total' = total + weight keys l ∧ Fails keys threshold total l)

/-- The loop over the keys weighs those that it examines. -/
theorem Sees.checkKeys (h : s.Sees limits get keys base A) (hroom : ¬ limits.Ends membership)
    (l : List (κ × Nat)) (hclear : keysClear strict threshold l total membership s = true) :
    (s.checkKeys threshold l total membership).2.Sees limits get keys base A ∧
      (s.checkKeys threshold l total membership).1.Tells limits strict keys threshold total
        membership l := by
  induction l generalizing s total membership with
  | nil => exact ⟨h, rfl, hroom, le_rfl, fun _ => ⟨rfl, .inr fun e he => by cases he⟩⟩
  | cons e l ih =>
    obtain ⟨k, w⟩ := e
    obtain ⟨hs, hsigned⟩ := h.signedBy k
    have hle := addWeight_le hsigned.mp total w
    have hwindow := SignLimits.window_cons hroom (k, w) l
    simp only [keysClear, Bool.and_eq_true] at hclear
    obtain ⟨hsum, hclear⟩ := hclear
    have hlength : membership + ((k, w) :: l).length = membership + 1 + l.length := by
      rw [length_cons]
      omega
    simp only [SignState.checkKeys]
    split_ifs at hclear ⊢ with hdone hends
    · refine ⟨hs, ?_, (k, w), hwindow ▸ mem_cons_self, hsigned.mp hdone.1⟩
      rw [hwindow]
      exact hdone.2.trans ((Nat.le_add_right _ _).trans (hle _))
    · rw [Exhausted, hs.limits_eq] at hends
      refine ⟨hs, ⟨hends.1, hends.2.trans (by omega)⟩, fun hstrict => ?_⟩
      subst hstrict
      rw [hwindow, SignLimits.window_of_ends hends]
      exact Fails.cons hsigned hsum hdone (.inr fun e he => by cases he)
    · rw [Exhausted, hs.limits_eq] at hends
      obtain ⟨hs', htells⟩ := ih hs hends hclear
      refine ⟨hs', ?_⟩
      generalize (s.signedBy k).2.checkKeys threshold l (addWeight (s.signedBy k).1 total w)
        (membership + 1) = r at htells ⊢
      obtain ⟨done, t⟩ := r
      cases done with
      | returned accepted =>
        cases accepted with
        | true =>
          obtain ⟨hreached, e, he, hmem⟩ := htells
          refine ⟨?_, e, hwindow ▸ mem_cons_of_mem _ he, hmem⟩
          rw [hwindow]
          exact hreached.trans (hle _)
        | false =>
          refine ⟨hlength ▸ htells.1, fun hstrict => ?_⟩
          have hfails := htells.2 hstrict
          subst hstrict
          rw [hwindow]
          exact hfails.cons hsigned hsum hdone
      | passed total' membership' =>
        obtain ⟨hmembers, hroom', hbound, hexact⟩ := htells
        refine ⟨hmembers.trans hlength.symm, hroom', hbound.trans (hle l), fun hstrict => ?_⟩
        obtain ⟨htotal, hfails⟩ := hexact hstrict
        subst hstrict
        exact ⟨htotal.trans (addWeight_eq hsigned hsum l), hfails.cons hsigned hsum hdone⟩

/-- A prepared search sees what was given to it. -/
theorem prepare_sees (temp : α) (sigs : List κ) (get : α → Authority κ α) (keys : List κ)
    (limits : SignLimits) (approvals : List α) (hA : approvedBefore temp approvals ⊆ A) :
    (prepare temp sigs get keys limits approvals).Sees limits get (signingKeys sigs keys)
      (approvedBefore temp approvals) A := by
  have happroved : ∀ a, a ∈ approvals.reverse ++ [temp] ↔ a ∈ approvedBefore temp approvals := by
    intro a
    rw [mem_append, mem_reverse, mem_singleton]
    exact or_comm
  rw [prepare, foldl_approve]
  refine ⟨rfl, rfl, fun k => ?_, fun a ha => (happroved a).mpr ha,
    fun a ha => hA ((happroved a).mp ha)⟩
  refine or_congr_left ((make_provided sigs .empty k).trans ?_)
  simp [Table.find?, Table.empty]

variable [DecidableEq α]

/-- The loop over the accounts is not diverted. A strict one passes over no account at the depth
limit, is not refused an account and does not exceed 32 bits; another one passes over accounts only
of an authority whose members are all examined. -/
def accountsClear (strict : Bool) (threshold size : Nat) (recurse : Option (Check κ α))
    (below : Option (Condition κ α)) : List (α × Nat) → Nat → Nat → Nat → SignState κ α → Bool
  | [], _, _, _, _ => true
  | (a, w) :: rest, totalWeight, membership, count, s =>
    restrainedBelow below a count s && match visit recurse a count s with
    | .skipped => !strict && decide (s.limits.HasRoom threshold size) &&
        accountsClear strict threshold size recurse below rest totalWeight membership count s
    | .refused => !strict
    | .checked accepted count s =>
      sumClear strict accepted totalWeight w &&
        if accepted ∧ threshold ≤ addWeight accepted totalWeight w then true
        else if s.Exhausted (membership + 1) then true
        else accountsClear strict threshold size recurse below rest
          (addWeight accepted totalWeight w) (membership + 1) count s

/-- One level of a search and those below it are not diverted. -/
def clearWith (strict : Bool) (recurse : Option (Check κ α)) (below : Option (Condition κ α)) :
    Condition κ α := fun auth count s =>
  keysClear strict auth.weightThreshold auth.keyAuths 0 0 s &&
    match s.checkKeys auth.weightThreshold auth.keyAuths 0 0 with
    | (.returned _, _) => true
    | (.passed totalWeight membership, s) => accountsClear strict auth.weightThreshold auth.size
        recurse below auth.accountAuths totalWeight membership count s

/-- No limit diverts a search. -/
def clear (strict : Bool) : Nat → Condition κ α
  | 0 => clearWith strict none none
  | levels + 1 => clearWith strict (some (checkAuthorityImpl levels)) (some (clear strict levels))

/-- A check that is not diverted accepts only what is reached, and all of it if it is strict. -/
def ExactCheck (limits : SignLimits) (get : α → Authority κ α) (keys : Set κ) (base A : Set α)
    (strict : Bool) (check : Check κ α) (condition : Condition κ α) : Prop :=
  ∀ auth count s, s.Sees limits get keys base A → condition auth count s = true →
    (check auth count s).2.2.Sees limits get keys base A ∧
      ((check auth count s).1 = true → auth.ReachedWithin limits keys A) ∧
      (strict = true → auth.ReachedWithin limits keys A → (check auth count s).1 = true)

/-- What a loop over accounts recurses to: nothing at the depth limit, else an exact check. -/
def ExactBelow (limits : SignLimits) (get : α → Authority κ α) (keys : Set κ) (base A : Set α)
    (strict : Bool) : Option (Check κ α) → Option (Condition κ α) → Prop
  | none, none => True
  | some check, some below => ExactCheck limits get keys base A strict check below
  | _, _ => False

section Accounts

variable {recurse : Option (Check κ α)} {below : Option (Condition κ α)}
  (hA : ∀ a, a ∈ A ↔ a ∈ base ∨ (get a).ReachedWithin limits keys A)
  (hrec : ExactBelow limits get keys base A strict recurse below)
include hA hrec

/-- What a visit of an account finds. -/
theorem Sees.visit (h : s.Sees limits get keys base A) {a : α} {count count' : Nat}
    {accepted : Bool} {s' : SignState κ α} (hclear : restrainedBelow below a count s = true)
    (hv : s.visit recurse a count = .checked accepted count' s') :
    s'.Sees limits get keys base A ∧ (accepted = true → a ∈ A) ∧
      (strict = true → a ∈ A → accepted = true) := by
  unfold SignState.visit at hv
  unfold restrainedBelow at hclear
  by_cases ha : a ∈ s.approvedBy
  · rw [if_pos ha] at hv
    cases hv
    exact ⟨h, fun _ => h.justified a ha, fun _ _ => rfl⟩
  rw [if_neg ha] at hv hclear
  have hbase : a ∉ base := fun hb => ha (h.approved a hb)
  cases recurse with
  | none => cases hv
  | some check =>
    cases below with
    | none => exact hrec.elim
    | some below =>
      dsimp only at hv hclear
      by_cases hfull : 0 < s.limits.maxAccountAuths ∧ s.limits.maxAccountAuths ≤ count
      · rw [if_pos hfull] at hv
        cases hv
      rw [if_neg hfull] at hv hclear
      obtain ⟨hs, hsound, hcomplete⟩ := hrec (s.getActive a) (count + 1) s h hclear
      rw [h.get_eq] at hs hsound hcomplete hv
      split at hv
      · rename_i heq
        rw [heq] at hs hsound
        have hmem : a ∈ A := (hA a).mpr (.inr (hsound rfl))
        cases hv
        exact ⟨hs.approve hmem, fun _ => hmem, fun _ _ => rfl⟩
      · rename_i heq
        rw [heq] at hs hcomplete
        cases hv
        refine ⟨hs, (fun hf => by cases hf), fun hstrict hmem => ?_⟩
        exact hcomplete hstrict (((hA a).mp hmem).resolve_left hbase)

/-- The loop over the accounts weighs those that it examines. -/
theorem Sees.checkAccounts (h : s.Sees limits get keys base A) (hroom : ¬ limits.Ends membership)
    {size : Nat} (count : Nat) (l : List (α × Nat))
    (hsize : membership + l.length = size ∨
      limits.HasRoom threshold size ∧ membership + l.length ≤ size)
    (hclear : accountsClear strict threshold size recurse below l total membership count s = true) :
    let r := s.checkAccounts threshold recurse l total membership count
    r.2.2.Sees limits get keys base A ∧
      (r.1 = true → threshold ≤ total + weight A (limits.window membership l) ∧
        (limits.Ends size → 0 < threshold ∨ ∃ e ∈ limits.window membership l, e.1 ∈ A)) ∧
      (strict = true → r.1 = false → Fails A threshold total (limits.window membership l) ∧
        (limits.Ends size ∨ total + weight A (limits.window membership l) < threshold)) := by
  induction l generalizing s total membership count with
  | nil =>
    have hnil : limits.window membership ([] : List (α × Nat)) = [] := by simp [SignLimits.window]
    simp only [SignState.checkAccounts, hnil, weight_nil, Nat.add_zero, decide_eq_true_eq,
      decide_eq_false_iff_not, not_le]
    refine ⟨h, fun hle => ⟨hle, fun hends => .inl ?_⟩, fun _ hlt => ⟨.inl hlt, .inr hlt⟩⟩
    -- the list ends before the limit, or accounts were passed over and the threshold is positive
    unfold SignLimits.Ends at hends hroom
    unfold SignLimits.HasRoom at hsize
    rw [length_nil] at hsize
    omega
  | cons e l ih =>
    obtain ⟨a, w⟩ := e
    have hwindow := SignLimits.window_cons hroom (a, w) l
    simp only [accountsClear, Bool.and_eq_true] at hclear
    obtain ⟨hbelow, hclear⟩ := hclear
    rw [length_cons] at hsize
    simp only [SignState.checkAccounts]
    cases hv : s.visit recurse a count with
    | skipped =>
      simp only [hv, Bool.and_eq_true, Bool.not_eq_true', decide_eq_true_eq, h.limits_eq] at hclear
      obtain ⟨⟨hloose, hfits⟩, hclear⟩ := hclear
      obtain ⟨hs, hsound, -⟩ := ih h hroom count (.inr ⟨hfits, by omega⟩) hclear
      refine ⟨hs, fun hacc => ?_, fun hstrict => ?_⟩
      · -- the whole list is within the limit
        have hall : limits.window (membership + 1) l = l ∧ limits.window membership l = l := by
          unfold SignLimits.HasRoom at hfits
          constructor <;> exact SignLimits.window_of_le (by omega)
        obtain ⟨hreached, hcounts⟩ := hsound hacc
        rw [hall.2] at hreached hcounts
        rw [hwindow, hall.1]
        refine ⟨hreached.trans (Nat.add_le_add_left (weight_le_weight_cons _ _) _), fun hends => ?_⟩
        exact (hcounts hends).imp_right exists_mem_cons_of_exists
      · rw [hloose] at hstrict
        cases hstrict
    | refused =>
      simp only [hv, Bool.not_eq_true'] at hclear
      refine ⟨h, (fun hf => by cases hf), fun hstrict => ?_⟩
      rw [hclear] at hstrict
      cases hstrict
    | checked accepted count' s' =>
      obtain ⟨hs, hcounts, hcomplete⟩ := h.visit hA hrec hbelow hv
      have hle := addWeight_le hcounts total w
      simp only [hv, Bool.and_eq_true] at hclear
      obtain ⟨hsum, hclear⟩ := hclear
      dsimp only
      split_ifs at hclear ⊢ with hdone hends
      · refine ⟨hs, fun _ => ⟨?_, fun _ => .inr ⟨(a, w), hwindow ▸ mem_cons_self, hcounts hdone.1⟩⟩,
          fun _ hf => by cases hf⟩
        rw [hwindow]
        exact hdone.2.trans ((Nat.le_add_right _ _).trans (hle _))
      · rw [Exhausted, hs.limits_eq] at hends
        refine ⟨hs, (fun hf => by cases hf), fun hstrict _ => ?_⟩
        subst hstrict
        rw [hwindow, SignLimits.window_of_ends hends]
        exact ⟨Fails.cons ⟨hcounts, hcomplete rfl⟩ hsum hdone (.inr fun e he => by cases he),
          .inl ⟨hends.1, hends.2.trans (by omega)⟩⟩
      · rw [Exhausted, hs.limits_eq] at hends
        have hsize' : membership + 1 + l.length = size ∨
            limits.HasRoom threshold size ∧ membership + 1 + l.length ≤ size :=
          hsize.imp (by omega) (And.imp_right (by omega))
        obtain ⟨hs', hsound, hfails⟩ := ih hs hends count' hsize' hclear
        rw [hwindow]
        refine ⟨hs', fun hacc => ?_, fun hstrict hf => ?_⟩
        · obtain ⟨hreached, hmember⟩ := hsound hacc
          refine ⟨hreached.trans (hle _), fun hends => ?_⟩
          exact (hmember hends).imp_right exists_mem_cons_of_exists
        · obtain ⟨hrest, hends⟩ := hfails hstrict hf
          subst hstrict
          have hiff : accepted = true ↔ a ∈ A := ⟨hcounts, hcomplete rfl⟩
          rw [addWeight_eq hiff hsum] at hends
          exact ⟨hrest.cons hiff hsum hdone, hends⟩

/-- One level of the search is exact if the next one is. -/
theorem exactCheck_checkWith : ExactCheck limits get keys base A strict (checkWith recurse)
    (clearWith strict recurse below) := by
  intro auth count s h hclear
  simp only [clearWith, Bool.and_eq_true] at hclear
  obtain ⟨hkeysClear, hclear⟩ := hclear
  have hroom : ¬ limits.Ends 0 := fun hends => absurd hends.1 (by have := hends.2; omega)
  obtain ⟨hs, htells⟩ := h.checkKeys hroom auth.keyAuths hkeysClear
  unfold checkWith
  rcases hr : s.checkKeys auth.weightThreshold auth.keyAuths 0 0 with ⟨done, t⟩
  rw [hr] at hs htells hclear
  cases done with
  | returned accepted =>
    cases accepted with
    | true =>
      obtain ⟨hreached, hcounts⟩ := htells
      rw [Nat.zero_add] at hreached
      exact ⟨hs, fun _ => ⟨hreached.trans (Nat.le_add_right _ _), fun _ => .inr (.inl hcounts)⟩,
        fun _ _ => rfl⟩
    | false =>
      obtain ⟨hends, hfails⟩ := htells
      rw [Nat.zero_add] at hends
      refine ⟨hs, (fun hf => by cases hf), fun hstrict hreached => ?_⟩
      -- no account is examined, and the keys do not reach the threshold or do not count
      have hsize : limits.Ends auth.size := ⟨hends.1, hends.2.trans (Nat.le_add_right _ _)⟩
      have hcounts := hreached.2 hsize
      have hweight := hreached.1
      rw [SignLimits.window_of_ends hends] at hcounts hweight
      rw [weight_nil] at hweight
      rcases hfails hstrict with hlt | hnone
      · omega
      · rw [weight_eq_zero hnone] at hweight
        rcases hcounts with hpos | ⟨e, he, hmem⟩ | ⟨e, he, -⟩
        · omega
        · exact absurd hmem (hnone e he)
        · cases he
  | passed total' membership' =>
    obtain ⟨hmembers, hroom', hbound, hexact⟩ := htells
    rw [Nat.zero_add] at hmembers hbound
    subst hmembers
    have hwindow : limits.window 0 auth.keyAuths = auth.keyAuths := by
      unfold SignLimits.Ends at hroom'
      exact SignLimits.window_of_le (by omega)
    obtain ⟨hs', hsound, hfails⟩ :=
      hs.checkAccounts hA hrec hroom' count auth.accountAuths (.inl rfl) hclear
    refine ⟨hs', fun hacc => ?_, fun hstrict hreached => ?_⟩
    · obtain ⟨hreached, hcounts⟩ := hsound hacc
      unfold Authority.ReachedWithin
      rw [hwindow]
      exact ⟨hreached.trans (Nat.add_le_add_right hbound _),
        fun hends => (hcounts hends).imp_right Or.inr⟩
    · by_contra hacc
      obtain ⟨hrest, hends⟩ := hfails hstrict (Bool.not_eq_true _ ▸ hacc)
      obtain ⟨htotal, hkeys⟩ := hexact hstrict
      obtain ⟨hweight, hcounts⟩ := hreached
      rw [hwindow] at hweight hcounts
      rw [Nat.zero_add] at htotal
      rcases hrest with hlt | hnone
      · omega
      rw [weight_eq_zero hnone] at hweight hends
      rcases hends with hends | hlt
      · -- no account counts, and the keys do not reach the threshold or do not count
        rcases hkeys with hlt | hnokey
        · omega
        rw [weight_eq_zero hnokey] at hweight
        rcases hcounts hends with hpos | ⟨e, he, hmem⟩ | ⟨e, he, hmem⟩
        · omega
        · exact hnokey e he hmem
        · exact hnone e he hmem
      · omega

end Accounts

/-- The search is exact at every depth where it is not diverted. -/
theorem exactCheck_checkAuthorityImpl
    (hA : ∀ a, a ∈ A ↔ a ∈ base ∨ (get a).ReachedWithin limits keys A) (levels : Nat) :
    ExactCheck limits get keys base A strict (checkAuthorityImpl levels) (clear strict levels) := by
  induction levels with
  | zero => exact exactCheck_checkWith hA trivial
  | succ levels ih => exact exactCheck_checkWith hA ih

end SignState

namespace SignCall

variable {κ α : Type} [DecidableEq κ] [DecidableEq α]

/-- No limit diverts the search of a check. -/
def Clear (strict : Bool) (s : SignState κ α) : SignCall κ α → Prop
  | .checkAuthority auth depth count =>
    SignState.clear strict (s.limits.levels depth) auth count s = true
  | .checkAuthorityOf id => id ∈ s.approvedBy ∨
    SignState.clear strict (s.limits.levels 0) (s.getActive id) 1 s = true
  | .removeUnusedSignatures => False

instance (strict : Bool) (s : SignState κ α) (call : SignCall κ α) :
    Decidable (call.Clear strict s) :=
  match call with
  | .checkAuthority auth depth count =>
    inferInstanceAs (Decidable (SignState.clear strict (s.limits.levels depth) auth count s = true))
  | .checkAuthorityOf id => inferInstanceAs (Decidable (id ∈ s.approvedBy ∨
    SignState.clear strict (s.limits.levels 0) (s.getActive id) 1 s = true))
  | .removeUnusedSignatures => inferInstanceAs (Decidable False)

/-- What a check has to accept. -/
def GrantedWithin (limits : SignLimits) (get : α → Authority κ α) (keys : Set κ) (base : Set α) :
    SignCall κ α → Prop
  | .checkAuthority auth _ _ =>
    auth.ReachedWithin limits keys (authorizedWithin limits get keys base)
  | .checkAuthorityOf id => id ∈ authorizedWithin limits get keys base
  | .removeUnusedSignatures => False

/-- A check that is not diverted accepts only what is granted, and all of it if it is strict. -/
theorem perform_exact {strict : Bool} {limits : SignLimits} {get : α → Authority κ α}
    {keys : Set κ} {base : Set α} {s : SignState κ α}
    (h : s.Sees limits get keys base (authorizedWithin limits get keys base))
    (call : SignCall κ α) (hclear : call.Clear strict s) :
    ((call.perform s).1 = true → call.GrantedWithin limits get keys base) ∧
      (strict = true → call.GrantedWithin limits get keys base → (call.perform s).1 = true) := by
  have hexact : ∀ levels, SignState.ExactCheck limits get keys base
      (authorizedWithin limits get keys base) strict (SignState.checkAuthorityImpl levels)
      (SignState.clear strict levels) :=
    SignState.exactCheck_checkAuthorityImpl fun _ => mem_authorizedWithin
  cases call with
  | checkAuthority auth depth count => exact (hexact _ auth count s h hclear).2
  | checkAuthorityOf id =>
    change ((s.checkAuthorityOf id).1 = true → _) ∧ (_ → _ → (s.checkAuthorityOf id).1 = true)
    unfold SignState.checkAuthorityOf
    split_ifs with hid
    · exact ⟨fun _ => h.justified id hid, fun _ _ => rfl⟩
    have hbase : id ∉ base := fun hb => hid (h.approved id hb)
    obtain ⟨-, hsound, hcomplete⟩ := hexact _ _ 1 s h (hclear.resolve_left hid)
    rw [h.get_eq] at hsound hcomplete ⊢
    exact ⟨fun hacc => mem_authorizedWithin.mpr (.inr (hsound hacc)),
      fun hstrict hmem => hcomplete hstrict ((mem_authorizedWithin.mp hmem).resolve_left hbase)⟩
  | removeUnusedSignatures => exact hclear.elim

/-- Members beyond the limit divert no search, and neither does a cycle that a key spares it. -/
example :
    Clear true (SignState.prepare 0 [7, 8] (fun _ => ⟨1, [(1, 1)], [(7, 1)]⟩) [] ⟨2, 2, 125⟩ [])
      (.checkAuthority ⟨2, [(1, 1)], [(8, 1), (9, 1), (7, 1)]⟩ 0 0) ∧
    Clear true (SignState.prepare 0 [7, 8] (fun _ => ⟨1, [(1, 1)], [(7, 1)]⟩) [] ⟨2, 2, 125⟩ [])
      (.checkAuthorityOf 1) := by
  decide +kernel

/-- Account 4 signs. Account 1 is satisfied by account 4 or by a key of its own, account 2 by
account 3, and that by account 4. -/
def shortcut : Nat → Authority Nat Nat
  | 1 => ⟨1, [(4, 1)], [(11, 1)]⟩
  | 2 => ⟨1, [(3, 1)], []⟩
  | 3 => ⟨1, [(4, 1)], []⟩
  | _ => ⟨1, [], [(10, 1)]⟩

end SignCall

end Freezone.Protocol
