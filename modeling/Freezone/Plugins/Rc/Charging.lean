import Freezone.Core.Draw
import Freezone.Plugins.Rc.Model

/-!
# What a charge takes

`use_account_rcs` draws the cost from the pools in the slots of the account, in turn,
and the rest from the account's own bar. The bars are read for every slot before any is
written: a pool that occupies two slots is drawn from twice, and what the second draw
leaves is what is stored. The bound of the own bar is a product of 64 bits, and one that
has wrapped can lift the bar.
-/

namespace Freezone.Plugins.Rc

open List
open Chain.Delegation (Manabar saturate)

theorem saturate_eq {n : Int} (h : -2 ^ 63 ≤ n) (h' : n < 2 ^ 63) : saturate n = n := by
  unfold saturate
  omega

/-- Mana that is there is used as it is. -/
theorem useMana_currentMana {m : Manabar} {used : Int} (h : m.currentMana < 2 ^ 63)
    (hused : 0 ≤ used) (hle : used ≤ m.currentMana) :
    (m.useMana used).currentMana = m.currentMana - used := by
  change max (saturate (m.currentMana - used)) 0 = _
  rw [saturate_eq (by omega) (by omega)]
  omega

namespace State

variable {S S' : State} {name : Name} {rca : RcAccount} {rc : Int}

/-- The slots of an account whose pools have an edge to it. -/
def linkedSlots (S : State) (name : Name) (rca : RcAccount) : List Name :=
  (List.ofFn rca.indelSlots).filter fun p => (S.outdels.find? (p, name)).isSome

/-- The bars of an edge and of its pool, regenerated. -/
def bars (S : State) (name pool : Name) : Manabar × Manabar :=
  match S.slotBars name pool with
  | .ok (some b) => b
  | _ => ({}, {})

/-- The mana of a pool that an account can use. -/
def usable (S : State) (name pool : Name) : Int :=
  min (S.bars name pool).1.currentMana (S.bars name pool).2.currentMana

/-- The stored mana of a pool. -/
def poolMana (S : State) (pool : Name) : Int :=
  ((S.pools.find? pool).map fun p => p.rcPoolManabar.currentMana).getD 0

/-- The stored mana of the edge from a pool to an account. -/
def edgeMana (S : State) (name pool : Name) : Int :=
  ((S.outdels.find? (pool, name)).map fun e => e.drcManabar.currentMana).getD 0

/-- The stored mana of an account. -/
def ownMana (S : State) (name : Name) : Int :=
  ((S.rcAccounts.find? name).map fun rca => rca.rcManabar.currentMana).getD 0

/-- An account whose bars can be regenerated, the own one to `bar`, and together hold the cost. No
bar of a pool or an edge is negative, and all are numbers of 64 bits. -/
structure Covers (S : State) (name : Name) (rca : RcAccount) (maxMana : Int) (bar : Manabar)
    (rc : Int) : Prop where
  named : name ≠ .empty
  account : S.rcAccounts.find? name = some rca
  slots : ∀ p ∈ List.ofFn rca.indelSlots, ∃ b, S.slotBars name p = .ok b
  maximum : S.ownMaximum name rca = .ok maxMana
  own : regenerateMana rca.rcManabar maxMana S.time = .ok bar
  range : ∀ p ∈ S.linkedSlots name rca,
    (0 ≤ (S.bars name p).1.currentMana ∧ (S.bars name p).1.currentMana < 2 ^ 63) ∧
      0 ≤ (S.bars name p).2.currentMana ∧ (S.bars name p).2.currentMana < 2 ^ 63
  ownRange : 0 ≤ bar.currentMana ∧ bar.currentMana < 2 ^ 63
  cost : 0 ≤ rc
  covered : rc ≤ ((S.linkedSlots name rca).dedup.map (S.usable name)).sum + bar.currentMana
  deducts : S.skip.deductRc = false

/-- The distinct pools and the own bar fall by the cost, and each edge by what is taken from its
pool. -/
structure ChargesExactly (S S' : State) (name : Name) (rca : RcAccount) (bar : Manabar)
    (rc : Int) : Prop where
  total : ((S.linkedSlots name rca).dedup.map fun p =>
      (S.bars name p).2.currentMana - S'.poolMana p).sum +
    (bar.currentMana - S'.ownMana name) = rc
  edges : ∀ p ∈ S.linkedSlots name rca,
    (S.bars name p).1.currentMana - S'.edgeMana name p =
      (S.bars name p).2.currentMana - S'.poolMana p

/-- What a draw leaves of the bars. -/
def drawn (S : State) (name pool : Name) (consumed : Int) : Manabar × Manabar :=
  ((S.bars name pool).1.useMana consumed, (S.bars name pool).2.useMana consumed)

/-- The slots without an edge are passed over. -/
theorem slotBars_cases {pool : Name} {b : Option (Manabar × Manabar)}
    (h : S.slotBars name pool = .ok b) : b = none ∧ S.outdels.find? (pool, name) = none ∨
      b = some (S.bars name pool) ∧ (S.outdels.find? (pool, name)).isSome ∧
        (S.pools.find? pool).isSome := by
  unfold bars
  rw [h]
  unfold slotBars at h
  split at h
  · rename_i hnone
    exact .inl ⟨(Except.ok.inj h).symm, hnone⟩
  · rename_i edge hedge
    simp only [returns, getPool] at h
    obtain ⟨drcBar, -, p, hp, poolBar, -, rfl⟩ := h
    exact .inr ⟨rfl, by rw [hedge]; rfl, by rw [hp]; rfl⟩

/-- The first loop draws the cost from the linked slots in turn. -/
theorem drawSlots_eq {slots : List Name} (h : ∀ p ∈ slots, ∃ b, S.slotBars name p = .ok b)
    (total : Int) : S.drawSlots name rc slots total =
      let linked := slots.filter fun p => (S.outdels.find? (p, name)).isSome
      .ok ((Draw.taken (S.usable name) linked (rc - total)).map fun e =>
          (e.1, S.drawn name e.1 e.2),
        total + Draw.total (S.usable name) linked (rc - total)) := by
  induction slots generalizing total with
  | nil => simp [drawSlots, Draw.taken, Draw.total]
  | cons pool slots ih =>
    obtain ⟨b, hb⟩ := h pool mem_cons_self
    have hrest := ih fun p hp => h p (mem_cons_of_mem _ hp)
    rcases slotBars_cases hb with ⟨rfl, hnone⟩ | ⟨rfl, hsome, -⟩
    · rw [filter_cons_of_neg (by simp [hnone]), drawSlots, hb]
      exact hrest total
    rw [filter_cons_of_pos (by simpa using hsome), drawSlots, hb]
    change (S.drawSlots name rc slots (total + min (S.usable name pool) (rc - total)) >>= _) = _
    rw [hrest, ← sub_sub]
    simp only [Draw.taken, Draw.total_cons, ← add_assoc]
    rfl

/-- The second loop stores the last draw from each pool. -/
theorem writeSlots_spec {draws : List (Name × Manabar × Manabar)}
    (h : ∀ d ∈ draws, (S.outdels.find? (d.1, name)).isSome ∧ (S.pools.find? d.1).isSome) :
    ∃ S', forEach (writeSlot name) draws S = .ok S' ∧ S'.rcAccounts = S.rcAccounts ∧
      ∀ p, S'.poolMana p =
          ((Draw.last draws p).map fun d => d.2.currentMana).getD (S.poolMana p) ∧
        S'.edgeMana name p =
          ((Draw.last draws p).map fun d => d.1.currentMana).getD (S.edgeMana name p) := by
  induction draws generalizing S with
  | nil => exact ⟨S, rfl, rfl, fun p => ⟨rfl, rfl⟩⟩
  | cons d draws ih =>
    obtain ⟨hedge, hpool⟩ := h d mem_cons_self
    obtain ⟨edge, hedge⟩ := Option.isSome_iff_exists.mp hedge
    obtain ⟨pool, hpool⟩ := Option.isSome_iff_exists.mp hpool
    let S1 : State := { S with
      outdels := S.outdels.set (d.1, name) { edge with drcManabar := d.2.1 }
      pools := S.pools.set d.1 { pool with rcPoolManabar := d.2.2 } }
    have hwrite : writeSlot name d S = .ok S1 := by
      simp only [writeSlot, hedge, getPool, hpool]
      rfl
    have hkeys : ∀ d' ∈ draws,
        (S1.outdels.find? (d'.1, name)).isSome ∧ (S1.pools.find? d'.1).isSome := by
      intro d' hd'
      obtain ⟨he, hp⟩ := h d' (mem_cons_of_mem _ hd')
      rw [← Table.mem_keys] at he hp
      rw [← Table.mem_keys, ← Table.mem_keys, Table.keys_set, Table.keys_set]
      exact ⟨he, hp⟩
    obtain ⟨S', hS', hrc, hmana⟩ := ih hkeys
    refine ⟨S', ?_, hrc, fun p => ?_⟩
    · rw [forEach, hwrite]
      exact hS'
    rw [(hmana p).1, (hmana p).2, Draw.last]
    cases Draw.last draws p with
    | some d' => exact ⟨rfl, rfl⟩
    | none =>
      simp only [Option.none_or, Option.map_none, Option.getD_none, poolMana, edgeMana, S1,
        Table.find?_set hpool, Table.find?_set hedge, Prod.mk.injEq, and_true]
      by_cases hp : p = d.1
      · simp [hp]
      · simp [hp, Ne.symm hp]

variable {maxMana : Int} {bar : Manabar}

/-- What is usable of a linked slot is not negative. -/
theorem Covers.usable_nonneg (h : S.Covers name rca maxMana bar rc) :
    ∀ p ∈ S.linkedSlots name rca, 0 ≤ S.usable name p :=
  fun p hp => le_min (h.range p hp).1.1 (h.range p hp).2.1

/-- The slots that are drawn from have an edge and a pool. -/
theorem Covers.linked (h : S.Covers name rca maxMana bar rc) :
    ∀ d ∈ (Draw.taken (S.usable name) (S.linkedSlots name rca) rc).map fun e =>
        (e.1, S.drawn name e.1 e.2),
      (S.outdels.find? (d.1, name)).isSome ∧ (S.pools.find? d.1).isSome := by
  intro d hd
  obtain ⟨e, he, rfl⟩ := mem_map.mp hd
  have hp := mem_map_of_mem (f := Prod.fst) he
  rw [Draw.taken_keys] at hp
  obtain ⟨hslot, hlinked⟩ := mem_filter.mp hp
  obtain ⟨b, hb⟩ := h.slots _ hslot
  rcases slotBars_cases hb with ⟨-, hnone⟩ | ⟨-, hsome, hpool⟩
  · simp [hnone] at hlinked
  · exact ⟨hsome, hpool⟩

/-- The bars after a charge that the bars cover. -/
theorem useAccountRcs_covered (h : S.Covers name rca maxMana bar rc) :
    ∃ S', S.useAccountRcs name rc = .ok S' ∧
      S'.ownMana name = max (bar.currentMana -
        (rc - Draw.total (S.usable name) (S.linkedSlots name rca) rc)) (minMana maxMana) ∧
      ∀ p ∈ S.linkedSlots name rca,
        ∃ c, Draw.last (Draw.taken (S.usable name) (S.linkedSlots name rca) rc) p = some c ∧
          S'.poolMana p = ((S.bars name p).2.useMana c).currentMana ∧
          S'.edgeMana name p = ((S.bars name p).1.useMana c).currentMana := by
  have htotal := Draw.total_eq_min h.usable_nonneg h.cost
  -- a pool in two slots is counted at least as often as a pool is
  have hdedup : ((S.linkedSlots name rca).dedup.map (S.usable name)).sum ≤
      ((S.linkedSlots name rca).map (S.usable name)).sum := by
    refine ((dedup_sublist _).map _).sum_le_sum fun x hx => ?_
    obtain ⟨p, hp, rfl⟩ := mem_map.mp hx
    exact h.usable_nonneg p hp
  have hcover := h.covered
  have hown := h.ownRange
  have hdraws : S.drawSlots name rc (ofFn rca.indelSlots) 0 =
      .ok ((Draw.taken (S.usable name) (S.linkedSlots name rca) rc).map fun e =>
        (e.1, S.drawn name e.1 e.2), Draw.total (S.usable name) (S.linkedSlots name rca) rc) := by
    simpa only [linkedSlots, sub_zero, zero_add] using drawSlots_eq h.slots 0
  obtain ⟨S', hS', hrc, hmana⟩ := writeSlots_spec
    (S := S.setRcAccount name { rca with
      rcManabar := useManaDownTo bar (rc - Draw.total (S.usable name) (S.linkedSlots name rca) rc)
        (minMana maxMana) }) h.linked
  refine ⟨S', ?_, ?_, fun p hp => ?_⟩
  · have hmana : decide (rc ≤ Draw.total (S.usable name) (S.linkedSlots name rca) rc +
        min bar.currentMana (rc - Draw.total (S.usable name) (S.linkedSlots name rca) rc)) =
          true := decide_eq_true (by omega)
    simp only [useAccountRcs, if_neg h.named, returns, getRcAccount, exists_const]
    refine ⟨rca, h.account, _, hdraws, maxMana, h.maximum, bar, h.own, fun _ => hmana, ?_⟩
    rw [if_neg (by simp [hmana, h.deducts])]
    exact hS'
  · unfold ownMana
    rw [hrc, setRcAccount, Table.find?_set_self h.account]
    change max (saturate _) _ = _
    rw [saturate_eq (by omega) (by omega)]
  · have hmem : p ∈ (Draw.taken (S.usable name) (S.linkedSlots name rca) rc).map Prod.fst := by
      rwa [Draw.taken_keys]
    obtain ⟨c, hc⟩ := Option.isSome_iff_exists.mp (Draw.last_isSome hmem)
    have hlast := Draw.last_map (S.drawn name)
      (Draw.taken (S.usable name) (S.linkedSlots name rca) rc) p
    refine ⟨c, hc, ?_, ?_⟩
    · rw [(hmana p).1, hlast, hc]
      rfl
    · rw [(hmana p).2, hlast, hc]
      rfl

/-- A cost that is covered is charged exactly if and only if no pool is drawn from in two slots,
where one that occupies a later slot as well has no usable mana or the slots before it cover the
cost, and the bound of the own bar does not lift what is left of it. -/
theorem useAccountRcs_exact_iff {maxMana : Int} {bar : Manabar}
    (h : S.Covers name rca maxMana bar rc) :
    ∃ S', S.useAccountRcs name rc = .ok S' ∧
      (S.ChargesExactly S' name rca bar rc ↔
        Draw.Spared (S.usable name) (S.linkedSlots name rca) rc ∧
        minMana maxMana ≤ bar.currentMana -
          (rc - min rc ((S.linkedSlots name rca).map (S.usable name)).sum)) := by
  obtain ⟨S', hS', hown, hslots⟩ := useAccountRcs_covered h
  have hdrop : ∀ p ∈ S.linkedSlots name rca,
      (S.bars name p).2.currentMana - S'.poolMana p =
          (Draw.last (Draw.taken (S.usable name) (S.linkedSlots name rca) rc) p).getD 0 ∧
        (S.bars name p).1.currentMana - S'.edgeMana name p =
          (Draw.last (Draw.taken (S.usable name) (S.linkedSlots name rca) rc) p).getD 0 := by
    intro p hp
    obtain ⟨c, hc, hpool, hedge⟩ := hslots p hp
    obtain ⟨hc0, hcu⟩ := Draw.taken_bounds h.usable_nonneg h.cost (Draw.mem_of_last hc)
    obtain ⟨⟨-, hdrc⟩, -, hbar⟩ := h.range p hp
    obtain ⟨hle, hle'⟩ := le_min_iff.mp hcu
    rw [hpool, hedge, hc, Option.getD_some, useMana_currentMana hbar hc0 hle',
      useMana_currentMana hdrc hc0 hle]
    omega
  have hsum : ((S.linkedSlots name rca).dedup.map fun p =>
      (S.bars name p).2.currentMana - S'.poolMana p).sum =
        Draw.kept (S.usable name) (S.linkedSlots name rca) rc :=
    congrArg sum (map_congr_left fun p hp => (hdrop p (mem_dedup.mp hp)).1)
  obtain ⟨hkept, hspared⟩ := Draw.kept_eq_total_iff h.usable_nonneg h.cost
  refine ⟨S', hS', ?_⟩
  rw [← hspared, ← Draw.total_eq_min h.usable_nonneg h.cost]
  constructor
  · intro hexact
    have htotal := hexact.total
    omega
  · rintro ⟨hkept, hbound⟩
    refine ⟨?_, fun p hp => (hdrop p hp).2.trans (hdrop p hp).1.symm⟩
    omega

/-- The RC account of account 1, which account 2 created, with a pool in its second slot. -/
def guestAccount (second : Name) : RcAccount where
  creator := .account 2
  rcManabar := ⟨100, 0⟩
  indelSlots := ![.account 2, second, .account Chain.Funds.nullAccount]
  lastMaxRc := 100

/-- Account 1 has 100 RC of its own, and the pool of account 2 lends it 10. -/
def hosted (second : Name) : State where
  accounts := ⟨[(.account 1, { vestingShares := 100 })], by decide⟩
  rcAccounts := ⟨[(.account 1, guestAccount second)], by simp⟩
  pools := ⟨[(.account 2, ⟨⟨10, 0⟩, 10⟩)], by decide⟩
  outdels := ⟨[((.account 2, .account 1), ⟨⟨10, 0⟩, 10⟩)], by decide⟩

theorem hosted_covers {second : Name}
    (h : second = .account 2 ∨ second = .account Chain.Funds.nullAccount) :
    (hosted second).Covers (.account 1) (guestAccount second) 100 ⟨100, 0⟩ 15 where
  named := by decide
  account := rfl
  slots := by
    intro p hp
    obtain ⟨i, rfl⟩ := (mem_ofFn' _ _).mp hp
    fin_cases i
    · exact ⟨_, rfl⟩
    · rcases h with rfl | rfl <;> exact ⟨_, rfl⟩
    · exact ⟨_, rfl⟩
  maximum := rfl
  own := rfl
  range := by rcases h with rfl | rfl <;> decide
  ownRange := by decide
  cost := by decide
  covered := by rcases h with rfl | rfl <;> decide
  deducts := rfl

theorem useAccountRcs_exact_iff_hosted :
    (hosted (.account Chain.Funds.nullAccount)).Covers (.account 1)
        (guestAccount (.account Chain.Funds.nullAccount)) 100 ⟨100, 0⟩ 15 ∧
      ∃ S', (hosted (.account Chain.Funds.nullAccount)).useAccountRcs (.account 1) 15 = .ok S' ∧
        (hosted (.account Chain.Funds.nullAccount)).ChargesExactly S' (.account 1)
            (guestAccount (.account Chain.Funds.nullAccount)) ⟨100, 0⟩ 15 := by
  obtain ⟨S', hS', hiff⟩ := useAccountRcs_exact_iff (hosted_covers (.inr rfl))
  refine ⟨hosted_covers (.inr rfl), S', hS', hiff.mpr ⟨fun l₁ k l₂ hl hk => ?_, by decide⟩⟩
  have hnodup : ((hosted (.account Chain.Funds.nullAccount)).linkedSlots (.account 1)
      (guestAccount (.account Chain.Funds.nullAccount))).Nodup := by decide
  rw [hl, nodup_append, nodup_cons] at hnodup
  exact absurd hk hnodup.2.1.1

/-- The pool of account 2 in two slots: the first draw of 10 is overwritten by the second of 5. -/
theorem useAccountRcs_not_exact :
    (hosted (.account 2)).Covers (.account 1) (guestAccount (.account 2)) 100 ⟨100, 0⟩ 15 ∧
      ∃ S', (hosted (.account 2)).useAccountRcs (.account 1) 15 = .ok S' ∧
        S'.poolMana (.account 2) = 5 ∧ S'.ownMana (.account 1) = 100 ∧
        ¬ (hosted (.account 2)).ChargesExactly S' (.account 1) (guestAccount (.account 2))
          ⟨100, 0⟩ 15 := by
  refine ⟨hosted_covers (.inl rfl), _, rfl, by decide, by decide, fun h => ?_⟩
  have htotal := h.total
  revert htotal
  decide

end State

end Freezone.Plugins.Rc
