import Freezone.Core.Forest

/-!
# Polls

What the votes for witnesses are about, without the objects of the database: nodes
with shares choose a proxy or vote themselves. Each node keeps the shares that come
to it over each number of hops up to a depth, and each candidate keeps the weights of
its voters. Both are kept up to date when a node leaves its proxy, takes a new one,
votes, or gains and loses shares.
-/

namespace Freezone

open Forest Finset Function

/-- Nodes with their proxies, the shares that come to them over each number of hops, who votes for
whom, and the votes of each candidate. -/
@[ext] structure Poll (α : Type) where
  names : Finset α
  parent : α → Option α
  shares : α → Nat → Int
  voted : Finset (α × α)
  votes : α → Int

namespace Poll

variable {α : Type} [DecidableEq α] {P : Poll α} {depth : Nat} {a p x w : α} {delta : Nat → Int}

/-- The nodes that vote for a candidate themselves. -/
def voters (P : Poll α) (w : α) : Finset α :=
  P.names.filter fun x => P.parent x = none ∧ (x, w) ∈ P.voted

/-- What a node votes with. -/
def weight (depth : Nat) (P : Poll α) (x : α) : Int := ∑ j ∈ Finset.range (depth + 1), P.shares x j

/-- What a node gets at the end of a chain: the places of an array that are left there. -/
def reach (parent : α → Option α) (delta : Nat → Int) (depth : Nat) (a x : α) : Int :=
  ∑ m ∈ Finset.range (depth + 1), if hop parent m a = some x then
    ∑ i ∈ Finset.range (depth - m + 1), delta i else 0

/-- Add an array along the chain of a node, and to the votes at its end. -/
def adjust (depth : Nat) (delta : Nat → Int) (a : α) (P : Poll α) : Poll α :=
  { P with
    shares := fun x j => P.shares x j + if j ≤ depth then
      ∑ m ∈ Finset.range j, if hop P.parent (m + 1) a = some x then delta (j - (m + 1)) else 0
      else 0
    votes := fun w => P.votes w + ∑ x ∈ P.voters w, reach P.parent delta depth a x }

/-- A node leaves its proxy and takes its votes back. -/
def leave (a : α) (P : Poll α) : Poll α :=
  { P with parent := cut P.parent a, voted := P.voted.filter fun v => v.1 ≠ a }

/-- A node leaves its proxy. -/
def unfollow (a : α) (P : Poll α) : Poll α := { P with parent := cut P.parent a }

/-- A node takes a proxy. -/
def follow (a p : α) (P : Poll α) : Poll α := { P with parent := attach P.parent a p }

/-- No chain of proxies is endless or leaves the nodes, shares are counted where they come to, and
only who has no proxy votes. -/
structure Consistent (depth : Nat) (P : Poll α) : Prop where
  grounded : Grounded P.parent
  closed : ∀ x q, P.parent x = some q → q ∈ P.names
  shares : ∀ x, ∀ j ≤ depth, P.shares x j = hopSum P.names P.parent (P.shares · 0) j x
  outside : ∀ x, x ∉ P.names → ∀ j, P.shares x j = 0
  roots : ∀ v ∈ P.voted, P.parent v.1 = none

/-- The votes of a candidate are the weights of its voters. -/
def Tallied (depth : Nat) (P : Poll α) : Prop :=
  ∀ w, P.votes w = ∑ x ∈ P.voters w, P.weight depth x

/-- Who has a proxy has no votes to take back. -/
theorem Consistent.unfollow_eq (h : P.Consistent depth) (ha : P.parent a ≠ none) :
    (P.adjust depth delta a).unfollow a = (P.adjust depth delta a).leave a := by
  have hvoted : P.voted.filter (fun v => v.1 ≠ a) = P.voted := by
    refine filter_true_of_mem fun v hv he => ha ?_
    rw [← he]
    exact h.roots v hv
  refine Poll.ext rfl rfl rfl ?_ rfl
  exact hvoted.symm

/-- For a node without a proxy only its own votes are adjusted. -/
theorem adjust_root (ha : P.parent a = none) :
    P.adjust depth delta a = { P with votes := (P.adjust depth delta a).votes } := by
  refine Poll.ext rfl rfl ?_ rfl rfl
  funext x j
  rw [adjust]
  dsimp only
  rw [sum_eq_zero, ite_self, add_zero]
  intro m _
  rw [hop_of_root ha, if_neg (by simp)]

variable {parent : α → Option α}

/-- At an account without a proxy all levels arrive. -/
theorem reach_root (h : parent a = none) : reach parent delta depth a x =
      if a = x then ∑ i ∈ Finset.range (depth + 1), delta i else 0 := by
  rw [reach, sum_range_succ', sum_eq_zero, zero_add]
  · simp only [hop, Option.some.injEq, Nat.sub_zero]
  · intro m _
    rw [hop_of_root h, if_neg (by simp)]

/-- With a proxy what passes goes one level up. -/
theorem reach_parent (h : parent a = some p) (hx : a ≠ x) :
    reach parent delta (depth + 1) a x = reach parent delta depth p x := by
  rw [reach, sum_range_succ', hop, if_neg (fun he => hx (Option.some.inj he)), add_zero,
    reach]
  refine sum_congr rfl fun m _ => ?_
  rw [hop_of_parent h, Nat.add_sub_add_right]

/-- What reaches another node comes over at least one hop. -/
theorem reach_of_ne (hx : a ≠ x) : reach parent delta depth a x = ∑ m ∈ Finset.range depth,
      if hop parent (m + 1) a = some x then ∑ i ∈ Finset.range (depth - m), delta i else 0 := by
  rw [reach, sum_range_succ', hop, if_neg (fun he => hx (Option.some.inj he)), add_zero]
  refine sum_congr rfl fun m hm => ?_
  have hlt := mem_range.mp hm
  rw [show depth - (m + 1) + 1 = depth - m by omega]

theorem mem_voters : x ∈ P.voters w ↔ x ∈ P.names ∧ P.parent x = none ∧ (x, w) ∈ P.voted :=
  mem_filter

/-- A triangle of a chain and an array, added up along the chain. -/
theorem sum_triangle (f : Nat → Int) (g : Nat → Int) (depth : Nat) :
    ∑ j ∈ Finset.range (depth + 1), ∑ m ∈ Finset.range j, f m * g (j - (m + 1)) =
      ∑ m ∈ Finset.range depth, f m * ∑ i ∈ Finset.range (depth - m), g i := by
  have hswap : ∑ j ∈ range (depth + 1), ∑ m ∈ range j, f m * g (j - (m + 1)) =
      ∑ m ∈ range depth, ∑ j ∈ Ico (m + 1) (depth + 1), f m * g (j - (m + 1)) :=
    sum_comm' fun j m => by
      simp only [mem_range, mem_Ico]
      omega
  rw [hswap]
  refine sum_congr rfl fun m _ => ?_
  rw [sum_Ico_eq_sum_range, Nat.add_sub_add_right, mul_sum]
  refine sum_congr rfl fun i _ => ?_
  rw [Nat.add_sub_cancel_left]

/-- What a node but the first gains by an adjustment is what reaches it. -/
theorem weight_adjust (hx : a ≠ x) : (P.adjust depth delta a).weight depth x =
      P.weight depth x + reach P.parent delta depth a x := by
  have hterm : ∀ j ∈ range (depth + 1), (P.adjust depth delta a).shares x j =
      P.shares x j + ∑ m ∈ range j,
        (if hop P.parent (m + 1) a = some x then 1 else 0) * delta (j - (m + 1)) := by
    intro j hj
    rw [adjust]
    dsimp only
    rw [if_pos (Nat.le_of_lt_succ (mem_range.mp hj))]
    simp only [ite_mul, one_mul, zero_mul]
  rw [weight, sum_congr rfl hterm, sum_add_distrib, sum_triangle, reach_of_ne hx, weight]
  simp only [ite_mul, one_mul, zero_mul]

/-- An adjustment does not touch the shares of the nodes themselves. -/
theorem adjust_shares_zero (x : α) : (P.adjust depth delta a).shares x 0 = P.shares x 0 := by
  simp [adjust]

/-- What a level of an account gains from the accounts below it. -/
theorem adjust_shares {j : Nat} (hj : j ≤ depth) (x : α) :
    (P.adjust depth delta a).shares x j = P.shares x j +
      ∑ m ∈ Finset.range j, if hop P.parent (m + 1) a = some x then delta (j - (m + 1)) else 0 := by
  rw [adjust]
  dsimp only
  rw [if_pos hj]

/-- The nodes above a node are among the nodes. -/
theorem Consistent.mem_names (h : P.Consistent depth) {m : Nat}
    (hm : hop P.parent (m + 1) a = some x) : x ∈ P.names := by
  obtain ⟨y, hy⟩ := exists_child_of_hop hm
  exact h.closed y x hy

/-- Taking back all that a node holds and leaving its proxy keeps a poll consistent. -/
theorem Consistent.leave (h : P.Consistent depth) (a : α) :
    ((P.adjust depth (fun j => -P.shares a j) a).leave a).Consistent depth where
  grounded := h.grounded.cut a
  closed x q hq := by
    by_cases hx : x = a
    · rw [hx] at hq
      exact absurd ((cut_self P.parent a).symm.trans hq) nofun
    · exact h.closed x q ((cut_of_ne hx).symm.trans hq)
  shares x j hj := by
    have hown : (fun y => (P.adjust depth (fun j => -P.shares a j) a).shares y 0) =
        fun y => P.shares y 0 := funext fun y => adjust_shares_zero y
    change (P.adjust depth (fun j => -P.shares a j) a).shares x j = hopSum P.names
      (cut P.parent a) (fun y => (P.adjust depth (fun j => -P.shares a j) a).shares y 0) j x
    rw [hown, adjust_shares hj, h.shares x j hj,
      hopSum_cut P.names (P.shares · 0) h.grounded.acyclic a j x, add_assoc,
      ← sum_add_distrib, sum_eq_zero, add_zero]
    intro m hm
    split_ifs
    · rw [h.shares a _ (by omega), add_neg_cancel]
    · rfl
  outside x hx j := by
    change P.shares x j + _ = 0
    rw [h.outside x hx j, zero_add]
    split_ifs
    · exact sum_eq_zero fun m _ => if_neg fun hm => hx (h.mem_names hm)
    · rfl
  roots v hv := by
    obtain ⟨hmem, hne⟩ := mem_filter.mp hv
    exact (cut_of_ne hne).trans (h.roots v hmem)

/-- So do the votes. -/
theorem Tallied.leave (ht : P.Tallied depth) (a : α) :
    ((P.adjust depth (fun j => -P.shares a j) a).leave a).Tallied depth := by
  intro w
  have hvoters : ((P.adjust depth (fun j => -P.shares a j) a).leave a).voters w =
      (P.voters w).erase a := by
    ext x
    simp only [mem_voters, Poll.leave, adjust, mem_erase, mem_filter]
    by_cases hx : x = a
    · simp [hx]
    · simp [hx, cut_of_ne hx]
  change P.votes w + ∑ x ∈ P.voters w, reach P.parent (fun j => -P.shares a j) depth a x =
    ∑ x ∈ ((P.adjust depth (fun j => -P.shares a j) a).leave a).voters w,
      (P.adjust depth (fun j => -P.shares a j) a).weight depth x
  have hothers : ∀ x ∈ (P.voters w).erase a,
      (P.adjust depth (fun j => -P.shares a j) a).weight depth x =
        P.weight depth x + reach P.parent (fun j => -P.shares a j) depth a x :=
    fun x hx => weight_adjust (ne_of_mem_erase hx).symm
  rw [ht w, ← sum_add_distrib, hvoters, sum_congr rfl hothers]
  by_cases ha : a ∈ P.voters w
  · -- a voter takes back all of its weight
    have hown : P.weight depth a + reach P.parent (fun j => -P.shares a j) depth a a = 0 := by
      rw [reach_root (mem_voters.mp ha).2.1, if_pos rfl, sum_neg_distrib, weight,
        add_neg_cancel]
    rw [← add_sum_erase _ _ ha, hown, zero_add]
  · rw [erase_eq_of_notMem ha]

/-- Giving a new proxy all that a node holds keeps a poll consistent. -/
theorem Consistent.follow (h : P.Consistent depth) (ha : P.parent a = none)
    (hvoted : ∀ w, (a, w) ∉ P.voted) (hp : p ∈ P.names) (havoid : ∀ n, hop P.parent n p ≠ some a) :
    ((P.follow a p).adjust depth (P.shares a) a).Consistent depth := by
  have hgrounded : Grounded (attach P.parent a p) := h.grounded.attach havoid
  have hclosed : ∀ x q, attach P.parent a p x = some q → q ∈ P.names := by
    intro x q hq
    by_cases hx : x = a
    · rw [hx, attach_self, Option.some.injEq] at hq
      exact hq ▸ hp
    · exact h.closed x q ((attach_of_ne hx).symm.trans hq)
  refine ⟨hgrounded, hclosed, fun x j hj => ?_, fun x hx j => ?_, fun v hv => ?_⟩
  · have hown : (fun y => ((P.follow a p).adjust depth (P.shares a) a).shares y 0) =
        fun y => P.shares y 0 := funext fun y => adjust_shares_zero y
    rw [hown, adjust_shares hj]
    change P.shares x j + _ = hopSum P.names (attach P.parent a p) (P.shares · 0) j x
    rw [hopSum_attach P.names (P.shares · 0) hgrounded.acyclic ha j x, h.shares x j hj]
    refine congrArg _ (sum_congr rfl fun m hm => ?_)
    rw [h.shares a _ (by omega)]
    rfl
  · rw [adjust]
    change P.shares x j + _ = 0
    rw [h.outside x hx j, zero_add]
    split_ifs
    · refine sum_eq_zero fun m _ => if_neg fun hm => ?_
      obtain ⟨y, hy⟩ := exists_child_of_hop hm
      exact hx (hclosed y x hy)
    · rfl
  · have hne : v.1 ≠ a := fun he => hvoted v.2 (he ▸ hv)
    exact (attach_of_ne hne).trans (h.roots v hv)

/-- A proxy takes over the shares of an account without votes. -/
theorem Tallied.follow (ht : P.Tallied depth) (hvoted : ∀ w, (a, w) ∉ P.voted) :
    ((P.follow a p).adjust depth (P.shares a) a).Tallied depth := by
  intro w
  have hvoters : (P.follow a p).voters w = P.voters w := by
    ext x
    simp only [mem_voters, Poll.follow]
    by_cases hx : x = a
    · simp [hx, hvoted]
    · simp [attach_of_ne hx]
  have hne : ∀ x ∈ P.voters w, a ≠ x := by
    rintro x hx rfl
    exact hvoted w (mem_voters.mp hx).2.2
  change P.votes w + ∑ x ∈ (P.follow a p).voters w, _ = ∑ x ∈ (P.follow a p).voters w, _
  rw [hvoters, ht w, ← sum_add_distrib]
  refine sum_congr rfl fun x hx => ?_
  rw [weight_adjust (hne x hx)]
  rfl

section Gain

/-- An array with an amount in its first place. -/
def single (d : Int) : Nat → Int
  | 0 => d
  | _ + 1 => 0

theorem sum_single (d : Int) (n : Nat) : ∑ i ∈ Finset.range (n + 1), single d i = d := by
  rw [sum_range_succ', sum_eq_zero, zero_add]
  · rfl
  · intro i _
    rfl

/-- A node gains shares. -/
def gain (a : α) (d : Int) (P : Poll α) : Poll α :=
  { P with shares := fun x j => P.shares x j + if x = a ∧ j = 0 then d else 0 }

variable {d : Int}

/-- Only the own shares of the account grow. -/
theorem gain_own : (fun y => (P.gain a d).shares y 0) =
    Function.update (P.shares · 0) a (P.shares a 0 + d) := by
  funext y
  rw [update_apply]
  simp only [gain, and_true]
  split_ifs with hy
  · rw [hy]
  · rw [add_zero]

/-- Shares that are gained and adjusted for come to all that are above. -/
theorem shares_gain {j : Nat} (hj : j ≤ depth) (x : α) :
    ((P.gain a d).adjust depth (single d) a).shares x j =
      P.shares x j + if hop P.parent j a = some x then d else 0 := by
  rw [adjust_shares hj]
  change P.shares x j + (if x = a ∧ j = 0 then d else 0) + (∑ m ∈ range j,
    if hop P.parent (m + 1) a = some x then single d (j - (m + 1)) else 0) = _
  cases j with
  | zero => simp [hop, eq_comm]
  | succ j =>
    rw [sum_range_succ, Nat.sub_self, sum_eq_zero]
    · simp [single]
    · intro m hm
      have hlt := mem_range.mp hm
      obtain ⟨k, hk⟩ : ∃ k, j + 1 - (m + 1) = k + 1 := ⟨j - m - 1, by omega⟩
      rw [hk, single, ite_self]

/-- New shares are passed up the proxies. -/
theorem Consistent.gain (h : P.Consistent depth) (ha : a ∈ P.names) (d : Int) :
    ((P.gain a d).adjust depth (single d) a).Consistent depth where
  grounded := h.grounded
  closed := h.closed
  shares x j hj := by
    have hown : (fun y => ((P.gain a d).adjust depth (single d) a).shares y 0) =
        update (P.shares · 0) a (P.shares a 0 + d) := by
      rw [← gain_own]
      exact funext fun y => adjust_shares_zero y
    rw [hown, shares_gain hj, h.shares x j hj]
    exact (hopSum_update P.names (P.shares · 0) ha d).symm
  outside x hx j := by
    have hne : x ≠ a := fun he => hx (he ▸ ha)
    rw [adjust]
    simp only [Poll.gain, h.outside x hx j, hne, false_and, if_false, zero_add]
    split_ifs
    · exact sum_eq_zero fun m _ => if_neg fun hm => hx (h.mem_names hm)
    · rfl
  roots := h.roots

/-- The witnesses gain what their voters gain. -/
theorem Tallied.gain (ht : P.Tallied depth) (d : Int) :
    ((P.gain a d).adjust depth (single d) a).Tallied depth := by
  intro w
  change P.votes w + ∑ x ∈ P.voters w, reach P.parent (single d) depth a x =
    ∑ x ∈ P.voters w, ((P.gain a d).adjust depth (single d) a).weight depth x
  rw [ht w, ← sum_add_distrib]
  refine sum_congr rfl fun x _ => ?_
  have hterm : ∀ j ∈ range (depth + 1),
      ((P.gain a d).adjust depth (single d) a).shares x j =
        P.shares x j + if hop P.parent j a = some x then d else 0 :=
    fun j hj => shares_gain (Nat.le_of_lt_succ (mem_range.mp hj)) x
  rw [weight, weight, sum_congr rfl hterm, sum_add_distrib, reach]
  simp only [sum_single]

/-- Who neither votes nor has a proxy may gain shares without an adjustment. -/
theorem Consistent.gain_silent (h : P.Consistent depth) (ha : a ∈ P.names)
    (hroot : P.parent a = none) (d : Int) : (P.gain a d).Consistent depth where
  grounded := h.grounded
  closed := h.closed
  shares x j hj := by
    rw [gain_own]
    change P.shares x j + (if x = a ∧ j = 0 then d else 0) = _
    refine Eq.trans ?_ (hopSum_update P.names (P.shares · 0) ha d).symm
    rw [h.shares x j hj]
    refine congrArg _ ?_
    change _ = if hop P.parent j a = some x then d else 0
    cases j with
    | zero => simp [hop, eq_comm]
    | succ j =>
      rw [hop_of_root hroot, if_neg (by simp), if_neg (by simp)]
  outside x hx j := by
    have hne : x ≠ a := fun he => hx (he ▸ ha)
    simp only [Poll.gain, h.outside x hx j, hne, false_and, if_false, zero_add]
  roots := h.roots

/-- The shares of an account without votes count for no witness. -/
theorem Tallied.gain_silent (ht : P.Tallied depth) (hvoted : ∀ w, (a, w) ∉ P.voted) (d : Int) :
    (P.gain a d).Tallied depth := by
  intro w
  change P.votes w = ∑ x ∈ P.voters w, (P.gain a d).weight depth x
  rw [ht w]
  refine sum_congr rfl fun x hx => ?_
  have hne : x ≠ a := by
    rintro rfl
    exact hvoted w (mem_voters.mp hx).2.2
  simp only [weight, Poll.gain, hne, false_and, if_false, add_zero]

end Gain

section Vote

/-- A node votes for a candidate. -/
def vote (a w : α) (weight : Int) (P : Poll α) : Poll α :=
  { P with
    voted := insert (a, w) P.voted
    votes := Function.update P.votes w (P.votes w + weight) }

/-- A node takes back its vote for a candidate. -/
def unvote (a w : α) (weight : Int) (P : Poll α) : Poll α :=
  { P with
    voted := P.voted.erase (a, w)
    votes := Function.update P.votes w (P.votes w - weight) }

/-- A vote of an account without a proxy. -/
theorem Consistent.vote (h : P.Consistent depth) (hroot : P.parent a = none) (votes : α → Int) :
    { P with voted := insert (a, w) P.voted, votes := votes }.Consistent depth :=
  { h with
    roots := fun v hv => by
      rcases mem_insert.mp hv with rfl | hv
      · exact hroot
      · exact h.roots v hv }

theorem Consistent.unvote (h : P.Consistent depth) (votes : α → Int) :
    { P with voted := P.voted.erase (a, w), votes := votes }.Consistent depth :=
  { h with roots := fun v hv => h.roots v (mem_of_mem_erase hv) }

/-- A new vote counts with the weight of its voter. -/
theorem Tallied.vote (ht : P.Tallied depth) (ha : a ∈ P.names) (hroot : P.parent a = none)
    (hnew : (a, w) ∉ P.voted) : (P.vote a w (P.weight depth a)).Tallied depth := by
  intro v
  change update P.votes w _ v = ∑ x ∈ (P.vote a w _).voters v, P.weight depth x
  have hvoters : (P.vote a w (P.weight depth a)).voters v =
      if v = w then insert a (P.voters v) else P.voters v := by
    ext x
    by_cases hv : v = w
    · rw [if_pos hv, hv]
      simp only [mem_voters, Poll.vote, mem_insert, Prod.mk.injEq, and_true]
      constructor
      · rintro ⟨hx, hp, rfl | hvote⟩
        · exact .inl rfl
        · exact .inr ⟨hx, hp, hvote⟩
      · rintro (rfl | ⟨hx, hp, hvote⟩)
        · exact ⟨ha, hroot, Or.inl rfl⟩
        · exact ⟨hx, hp, Or.inr hvote⟩
    · rw [if_neg hv]
      simp only [mem_voters, Poll.vote, mem_insert, Prod.mk.injEq, hv, and_false, false_or]
  rw [hvoters, update_apply]
  split_ifs with hv
  · have hnot : a ∉ P.voters w := fun hx => hnew (mem_voters.mp hx).2.2
    rw [hv, sum_insert hnot, ht w, add_comm]
  · exact ht v

/-- A vote that is withdrawn takes the weight of its voter along. -/
theorem Tallied.unvote (ht : P.Tallied depth) (ha : a ∈ P.names) (hroot : P.parent a = none)
    (hold : (a, w) ∈ P.voted) : (P.unvote a w (P.weight depth a)).Tallied depth := by
  intro v
  change update P.votes w _ v = ∑ x ∈ (P.unvote a w _).voters v, P.weight depth x
  have hvoters : (P.unvote a w (P.weight depth a)).voters v =
      if v = w then (P.voters v).erase a else P.voters v := by
    ext x
    by_cases hv : v = w
    · rw [if_pos hv, hv]
      simp only [mem_voters, Poll.unvote, mem_erase, ne_eq, Prod.mk.injEq, and_true]
      constructor
      · rintro ⟨hx, hp, hne, hvote⟩
        exact ⟨hne, hx, hp, hvote⟩
      · rintro ⟨hne, hx, hp, hvote⟩
        exact ⟨hx, hp, hne, hvote⟩
    · rw [if_neg hv]
      simp only [mem_voters, Poll.unvote, mem_erase, ne_eq, Prod.mk.injEq, hv, and_false,
        not_false_eq_true, true_and]
  rw [hvoters, update_apply]
  split_ifs with hv
  · have hmem : a ∈ P.voters w := mem_voters.mpr ⟨ha, hroot, hold⟩
    rw [hv, ht w, ← add_sum_erase _ _ hmem]
    ring
  · exact ht v

end Vote

/-- A node without shares joins. -/
theorem Consistent.join (h : P.Consistent depth) (ha : a ∉ P.names) :
    { P with names := insert a P.names }.Consistent depth where
  grounded := h.grounded
  closed x q hq := mem_insert_of_mem (h.closed x q hq)
  shares x j hj := by
    rw [hopSum_insert P.names (P.shares · 0) ha (h.outside a ha 0)]
    exact h.shares x j hj
  outside x hx j := h.outside x (fun hmem => hx (mem_insert_of_mem hmem)) j
  roots := h.roots

/-- A new account changes no tally. -/
theorem Tallied.join (ht : P.Tallied depth) (h : P.Consistent depth) (ha : a ∉ P.names) :
    { P with names := insert a P.names }.Tallied depth := by
  intro w
  change P.votes w = ∑ x ∈ { P with names := insert a P.names }.voters w, P.weight depth x
  have hweight : P.weight depth a = 0 := sum_eq_zero fun j _ => h.outside a ha j
  have hvoters : { P with names := insert a P.names }.voters w =
      (insert a P.names).filter fun x => P.parent x = none ∧ (x, w) ∈ P.voted := rfl
  rw [ht w, hvoters, filter_insert]
  split_ifs
  · rw [sum_insert (fun hmem => ha (mem_of_mem_filter a hmem)), hweight, zero_add]
    rfl
  · rfl

/-- All shares are multiplied. -/
theorem Consistent.split (h : P.Consistent depth) (k : Int) :
    { P with shares := fun x j => P.shares x j * k }.Consistent depth where
  grounded := h.grounded
  closed := h.closed
  shares x j hj := by
    dsimp only
    rw [h.shares x j hj, hopSum, hopSum, sum_mul]
    exact sum_congr rfl fun y _ => by rw [ite_mul, zero_mul]
  outside x hx j := by
    dsimp only
    rw [h.outside x hx j, zero_mul]
  roots := h.roots

end Poll

end Freezone
