import Freezone.Core.Weights
import Freezone.Protocol.Authority

/-!
# What a signature check proves

The accounts that keys authorize are the least set that contains the accounts
approved beforehand and every account whose authority the keys and the set itself
reach. Whatever a check accepts is reached by that set: every entry of the cache
belongs to it, at whatever depth it was approved.
-/

namespace Freezone.Protocol

open Weights List

section Abstract

variable {κ α : Type}

/-- The threshold is reached by the weights of keys and of accounts. -/
def Authority.Reached (keys : Set κ) (accounts : Set α) (auth : Authority κ α) : Prop :=
  auth.weightThreshold ≤ weight keys auth.keyAuths + weight accounts auth.accountAuths

/-- More keys and accounts reach what fewer reach. -/
theorem Authority.Reached.mono {auth : Authority κ α} {keys keys' : Set κ} {A A' : Set α}
    (h : auth.Reached keys A) (hk : keys ⊆ keys') (hA : A ⊆ A') : auth.Reached keys' A' :=
  h.trans (Nat.add_le_add (weight_mono hk _) (weight_mono hA _))

/-- The accounts approved beforehand and those whose authority a set reaches. -/
def support (get : α → Authority κ α) (keys : Set κ) (base : Set α) : Set α →o Set α where
  toFun A := base ∪ {a | (get a).Reached keys A}
  monotone' _ _ h := Set.union_subset_union_right _ fun _ ha =>
    Authority.Reached.mono ha subset_rfl h

/-- The accounts that the keys authorize. -/
def authorized (get : α → Authority κ α) (keys : Set κ) (base : Set α) : Set α :=
  (support get keys base).lfp

/-- An account is approved beforehand or its authority is reached. -/
theorem mem_authorized {get : α → Authority κ α} {keys : Set κ} {base : Set α} {a : α} :
    a ∈ authorized get keys base ↔
      a ∈ base ∨ (get a).Reached keys (authorized get keys base) := by
  have h := (support get keys base).map_lfp
  conv_lhs => rw [authorized, ← h]
  exact Iff.rfl

/-- The authority is satisfied by keys and by accounts that they authorize. -/
def Authority.Satisfied (get : α → Authority κ α) (keys : Set κ) (base : Set α)
    (auth : Authority κ α) : Prop :=
  auth.Reached keys (authorized get keys base)

end Abstract

variable {κ α : Type} [DecidableEq κ]

namespace SignState

variable {keys : Set κ} {A : Set α} {s : SignState κ α}

/-- What the state counts as signed or approved is so, for a set that contains all that it
reaches. -/
structure Justified (keys : Set κ) (A : Set α) (s : SignState κ α) : Prop where
  provided : ∀ k, (s.providedSignatures.find? k).isSome → k ∈ keys
  available : ∀ k ∈ s.availableKeys, k ∈ keys
  approved : ∀ a ∈ s.approvedBy, a ∈ A
  closed : ∀ a, (s.getActive a).Reached keys A → a ∈ A

theorem Justified.approve (h : s.Justified keys A) {a : α} (ha : a ∈ A) :
    (s.approve a).Justified keys A where
  provided := h.provided
  available := h.available
  approved b hb := by
    rcases mem_cons.mp hb with rfl | hb
    · exact ha
    · exact h.approved b hb
  closed := h.closed

theorem Justified.approveAll {l : List α} (hl : ∀ a ∈ l, a ∈ A) (h : s.Justified keys A) :
    (l.foldl (fun s a => s.approve a) s).Justified keys A := by
  induction l generalizing s with
  | nil => exact h
  | cons a l ih =>
    exact ih (fun b hb => hl b (mem_cons_of_mem _ hb)) (h.approve (hl a mem_cons_self))

/-- A key counts as signed if it was provided or is available. -/
theorem Justified.signedBy (h : s.Justified keys A) (k : κ) :
    (s.signedBy k).2.Justified keys A ∧ ((s.signedBy k).1 = true → k ∈ keys) := by
  unfold SignState.signedBy
  split
  · rename_i hnone
    split_ifs with hav
    · refine ⟨⟨fun k' hk' => ?_, h.available, h.approved, h.closed⟩, fun _ => h.available k hav⟩
      cases hins : s.providedSignatures.insert k true with
      | none =>
        rw [hins] at hk'
        exact h.provided k' hk'
      | some t =>
        rw [hins, Option.getD_some, Table.find?_insert hins] at hk'
        by_cases he : k' = k
        · exact he ▸ h.available k hav
        · rw [if_neg he] at hk'
          exact h.provided k' hk'
    · exact ⟨h, fun hf => by cases hf⟩
  · rename_i b hsome
    have hk : k ∈ keys := h.provided k (by rw [hsome]; rfl)
    refine ⟨⟨fun k' hk' => ?_, h.available, h.approved, h.closed⟩, fun _ => hk⟩
    rw [Table.find?_set hsome] at hk'
    by_cases he : k' = k
    · exact he ▸ hk
    · rw [if_neg he] at hk'
      exact h.provided k' hk'

theorem Justified.removeUnusedSignatures (h : s.Justified keys A) :
    s.removeUnusedSignatures.2.Justified keys A where
  provided k hk := by
    rw [SignState.removeUnusedSignatures, Table.find?_restrict] at hk
    split at hk
    · exact h.provided k hk
    · cases hk
  available := h.available
  approved := h.approved
  closed := h.closed

/-- The weight at the end of the loop over the keys is within a bound. -/
def KeysDone.Within (threshold bound : Nat) : KeysDone → Prop
  | .returned true => threshold ≤ bound
  | .returned false => True
  | .passed totalWeight _ => totalWeight ≤ bound

theorem KeysDone.Within.mono {threshold bound bound' : Nat} {d : KeysDone}
    (h : d.Within threshold bound) (hle : bound ≤ bound') : d.Within threshold bound' := by
  cases d with
  | returned accepted =>
    cases accepted with
    | true => exact le_trans h hle
    | false => trivial
  | passed => exact le_trans h hle

/-- The weight counted so far, after one more entry. -/
theorem addWeight_le {ι : Type} {B : Set ι} {i : ι} {counts : Bool} (h : counts = true → i ∈ B)
    (total w : Nat) (l : List (ι × Nat)) :
    addWeight counts total w + weight B l ≤ total + weight B ((i, w) :: l) := by
  unfold addWeight
  cases counts with
  | true =>
    rw [if_pos rfl, weight_cons_of_mem (h rfl)]
    omega
  | false =>
    exact Nat.add_le_add_left (weight_le_weight_cons _ _) _

/-- The loop over the keys counts no more than their weight. -/
theorem Justified.checkKeys (h : s.Justified keys A) (threshold : Nat) (l : List (κ × Nat))
    (total membership : Nat) : (s.checkKeys threshold l total membership).2.Justified keys A ∧
      (s.checkKeys threshold l total membership).1.Within threshold (total + weight keys l) := by
  induction l generalizing s total membership with
  | nil => exact ⟨h, le_rfl⟩
  | cons e l ih =>
    obtain ⟨k, w⟩ := e
    obtain ⟨hs, hsigned⟩ := h.signedBy k
    have hle := addWeight_le hsigned total w l
    rw [SignState.checkKeys]
    dsimp only
    split
    · rename_i hreached
      exact ⟨hs, le_trans hreached.2 (le_trans (Nat.le_add_right _ _) hle)⟩
    · split
      · exact ⟨hs, trivial⟩
      · obtain ⟨hs', hw⟩ := ih hs _ _
        exact ⟨hs', hw.mono hle⟩

variable [DecidableEq α]

/-- A check keeps the state justified and accepts only what is reached. -/
def SoundCheck (keys : Set κ) (A : Set α) (check : Check κ α) : Prop :=
  ∀ auth count s, s.Justified keys A → (check auth count s).2.2.Justified keys A ∧
    ((check auth count s).1 = true → auth.Reached keys A)

/-- What a visit of an account finds. -/
theorem Justified.visit {recurse : Option (Check κ α)}
    (hrec : ∀ check ∈ recurse, SoundCheck keys A check) (h : s.Justified keys A) {a : α}
    {count count' : Nat} {accepted : Bool} {s' : SignState κ α}
    (hv : s.visit recurse a count = .checked accepted count' s') :
    s'.Justified keys A ∧ (accepted = true → a ∈ A) := by
  unfold SignState.visit at hv
  split at hv
  · rename_i ha
    cases hv
    exact ⟨h, fun _ => h.approved a ha⟩
  · split at hv
    · cases hv
    rename_i check
    split at hv
    · cases hv
    obtain ⟨hs, hreached⟩ := hrec check rfl (s.getActive a) (count + 1) s h
    split at hv
    · rename_i count1 s1 heq
      rw [heq] at hs hreached
      have ha : a ∈ A := h.closed a (hreached rfl)
      cases hv
      exact ⟨hs.approve ha, fun _ => ha⟩
    · rename_i count1 s1 heq
      rw [heq] at hs
      cases hv
      exact ⟨hs, fun hf => by cases hf⟩

/-- The loop over the accounts counts no more than the weight of those in the set. -/
theorem Justified.checkAccounts {threshold : Nat} {recurse : Option (Check κ α)}
    (hrec : ∀ check ∈ recurse, SoundCheck keys A check) (h : s.Justified keys A)
    (l : List (α × Nat)) (total membership count : Nat) :
    (s.checkAccounts threshold recurse l total membership count).2.2.Justified keys A ∧
      ((s.checkAccounts threshold recurse l total membership count).1 = true →
        threshold ≤ total + weight A l) := by
  induction l generalizing s total membership count with
  | nil => exact ⟨h, fun hle => of_decide_eq_true hle⟩
  | cons e l ih =>
    obtain ⟨a, w⟩ := e
    rw [SignState.checkAccounts]
    split
    · obtain ⟨hs, hw⟩ := ih h total membership count
      exact ⟨hs, fun hacc => (hw hacc).trans
        (Nat.add_le_add_left (weight_le_weight_cons _ _) _)⟩
    · exact ⟨h, fun hf => by cases hf⟩
    · rename_i accepted count' s' hv
      obtain ⟨hs, hcounts⟩ := h.visit hrec hv
      have hle := addWeight_le hcounts total w l
      dsimp only
      split
      · rename_i hreached
        exact ⟨hs, fun _ => hreached.2.trans ((Nat.le_add_right _ _).trans hle)⟩
      · split
        · exact ⟨hs, fun hf => by cases hf⟩
        · obtain ⟨hs', hw⟩ := ih hs _ _ _
          exact ⟨hs', fun hacc => (hw hacc).trans hle⟩

/-- One level of the search is sound if the next one is. -/
theorem soundCheck_checkWith {recurse : Option (Check κ α)}
    (hrec : ∀ check ∈ recurse, SoundCheck keys A check) :
    SoundCheck keys A (checkWith recurse) := by
  intro auth count s h
  obtain ⟨hs, hkeys⟩ := h.checkKeys auth.weightThreshold auth.keyAuths 0 0
  unfold checkWith
  split
  · rename_i accepted s' heq
    rw [heq] at hs hkeys
    refine ⟨hs, fun hacc => ?_⟩
    subst hacc
    rw [Nat.zero_add] at hkeys
    exact le_trans hkeys (Nat.le_add_right _ _)
  · rename_i total membership s' heq
    rw [heq] at hs hkeys
    obtain ⟨hs', hacc⟩ := hs.checkAccounts hrec auth.accountAuths total membership count
    refine ⟨hs', fun h => (hacc h).trans ?_⟩
    rw [Nat.zero_add] at hkeys
    exact Nat.add_le_add_right hkeys _

/-- The search is sound at every depth. -/
theorem soundCheck_checkAuthorityImpl (levels : Nat) :
    SoundCheck keys A (checkAuthorityImpl levels) := by
  induction levels with
  | zero => exact soundCheck_checkWith fun _ h => by cases h
  | succ levels ih =>
    refine soundCheck_checkWith fun check h => ?_
    cases h
    exact ih

/-- The search accepts only authorities that are reached. -/
theorem Justified.checkAuthority (h : s.Justified keys A) (auth : Authority κ α)
    (depth count : Nat) : (s.checkAuthority auth depth count).2.Justified keys A ∧
      ((s.checkAuthority auth depth count).1 = true → auth.Reached keys A) :=
  soundCheck_checkAuthorityImpl (s.limits.levels depth) auth count s h

/-- The search accepts only accounts that are authorized. -/
theorem Justified.checkAuthorityOf (h : s.Justified keys A) (id : α) :
    (s.checkAuthorityOf id).2.Justified keys A ∧ ((s.checkAuthorityOf id).1 = true → id ∈ A) := by
  unfold SignState.checkAuthorityOf
  split_ifs with hid
  · exact ⟨h, fun _ => h.approved id hid⟩
  · obtain ⟨hs, hreached⟩ := h.checkAuthority (s.getActive id) 0 1
    exact ⟨hs, fun hacc => h.closed id (hreached hacc)⟩

/-- The provided keys of a new state. -/
theorem make_provided (sigs : List κ) (t : Table κ Bool) (k : κ) :
    ((sigs.foldl (fun t k => (t.insert k false).getD t) t).find? k).isSome ↔
      (t.find? k).isSome ∨ k ∈ sigs := by
  induction sigs generalizing t with
  | nil => simp
  | cons k' sigs ih =>
    rw [foldl_cons, ih, mem_cons, ← or_assoc]
    refine or_congr_left ?_
    cases hins : t.insert k' false with
    | none =>
      refine ⟨Or.inl, ?_⟩
      rintro (h | rfl)
      · exact h
      unfold Table.insert at hins
      split at hins
      · rename_i hk
        rwa [← Table.mem_keys, Table.keys, mem_toFinset]
      · cases hins
    | some t' =>
      rw [Option.getD_some, Table.find?_insert hins]
      by_cases hk : k = k' <;> simp [hk]

end SignState

/-- The keys that a check may count. -/
def signingKeys (sigs keys : List κ) : Set κ := {k | k ∈ sigs ∨ k ∈ keys}

/-- The account `temp` and those that approved beforehand. -/
def approvedBefore (temp : α) (approvals : List α) : Set α := {a | a = temp ∨ a ∈ approvals}

namespace SignState

/-- A prepared search holds only what was given to it. -/
theorem prepare_justified (temp : α) (sigs : List κ) (getActive : α → Authority κ α)
    (keys : List κ) (limits : SignLimits) (approvals : List α) :
    (prepare temp sigs getActive keys limits approvals).Justified (signingKeys sigs keys)
      (authorized getActive (signingKeys sigs keys) (approvedBefore temp approvals)) := by
  have hbase : ∀ a ∈ approvedBefore temp approvals,
      a ∈ authorized getActive (signingKeys sigs keys) (approvedBefore temp approvals) :=
    fun a ha => mem_authorized.mpr (Or.inl ha)
  refine Justified.approveAll (fun a ha => hbase a (Or.inr ha)) ⟨fun k hk => ?_,
    fun k hk => Or.inr hk, fun a ha => ?_, fun a ha => mem_authorized.mpr (Or.inr ha)⟩
  · exact .inl (((make_provided sigs .empty k).mp hk).resolve_left (by simp [Table.find?,
      Table.empty]))
  · rw [mem_singleton.mp ha]
    exact hbase temp (Or.inl rfl)

end SignState

/-- A call of the interface of `sign_state`. -/
inductive SignCall (κ α : Type)
  | checkAuthority (auth : Authority κ α) (depth accountAuthCount : Nat)
  | checkAuthorityOf (id : α)
  | removeUnusedSignatures

variable [DecidableEq α]

namespace SignCall

def perform (s : SignState κ α) : SignCall κ α → Bool × SignState κ α
  | .checkAuthority auth depth count => s.checkAuthority auth depth count
  | .checkAuthorityOf id => s.checkAuthorityOf id
  | .removeUnusedSignatures => s.removeUnusedSignatures

/-- What a check that accepts has to mean. -/
def Granted (get : α → Authority κ α) (keys : Set κ) (base : Set α) : SignCall κ α → Prop
  | .checkAuthority auth _ _ => auth.Satisfied get keys base
  | .checkAuthorityOf id => id ∈ authorized get keys base
  | .removeUnusedSignatures => True

variable {get : α → Authority κ α} {keys : Set κ} {base : Set α} {s : SignState κ α}

/-- A call accepts only what the keys authorize. -/
theorem perform_sound (h : s.Justified keys (authorized get keys base)) (call : SignCall κ α) :
    (call.perform s).2.Justified keys (authorized get keys base) ∧
      ((call.perform s).1 = true → call.Granted get keys base) := by
  cases call with
  | checkAuthority auth depth count => exact h.checkAuthority auth depth count
  | checkAuthorityOf id => exact h.checkAuthorityOf id
  | removeUnusedSignatures => exact ⟨h.removeUnusedSignatures, fun _ => trivial⟩

/-- The state after calls in turn. -/
def performAll (s : SignState κ α) (calls : List (SignCall κ α)) : SignState κ α :=
  calls.foldl (fun s call => (call.perform s).2) s

/-- The calls of a transaction keep the search justified. -/
theorem performAll_justified (calls : List (SignCall κ α))
    (h : s.Justified keys (authorized get keys base)) :
    (performAll s calls).Justified keys (authorized get keys base) := by
  induction calls generalizing s with
  | nil => exact h
  | cons call calls ih => exact ih (perform_sound h call).1

/-- Whatever calls came before, a check accepts only an authority that the provided and available
keys satisfy. -/
theorem granted_of_accepted (temp : α) (sigs : List κ) (getActive : α → Authority κ α)
    (keys : List κ) (limits : SignLimits) (approvals : List α) (calls : List (SignCall κ α))
    (call : SignCall κ α)
    (h : (call.perform (performAll (SignState.prepare temp sigs getActive keys limits approvals)
      calls)).1 = true) :
    call.Granted getActive (signingKeys sigs keys) (approvedBefore temp approvals) :=
  (perform_sound (performAll_justified calls
    (SignState.prepare_justified temp sigs getActive keys limits approvals)) call).2 h

/-- An authority of one account is checked through that account's key. -/
theorem granted_of_accepted_nested :
    (perform (performAll (SignState.prepare 0 [7] (fun _ => ⟨1, [], [(7, 1)]⟩) [] ⟨2, 10, 125⟩ [])
      []) (.checkAuthority ⟨1, [(1, 1)], []⟩ 0 0)).1 = true ∧
    Granted (fun _ => ⟨1, [], [(7, 1)]⟩) (signingKeys [7] []) (approvedBefore 0 [])
      (.checkAuthority ⟨1, [(1, 1)], []⟩ 0 0) := by
  have haccepted : (perform (performAll (SignState.prepare 0 [7] (fun _ => ⟨1, [], [(7, 1)]⟩) []
      ⟨2, 10, 125⟩ []) []) (.checkAuthority ⟨1, [(1, 1)], []⟩ 0 0)).1 = true := by decide +kernel
  exact ⟨haccepted, granted_of_accepted 0 [7] _ [] _ [] [] _ haccepted⟩

end SignCall

end Freezone.Protocol
