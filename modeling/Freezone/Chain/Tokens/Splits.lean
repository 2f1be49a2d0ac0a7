import Freezone.Chain.Tokens.Tiers

/-!
# Splitting contributions over the tiers

When a contribution is paid out, and when the founders are, the FREEZONE is split
over the tiers that it falls into. Both loops walk the index of the tiers of all
tokens. The part of a tier should be what the FREEZONE in question has in common
with the interval between the cap of the tier before and the cap of the tier.
-/

namespace Freezone.Chain.Tokens

open List

/-- The loop of `schedule_next_contributor_payout` over the tiers. -/
def splitContribution (processed : Int) : List IcoTier → Int → List (IcoTier × Int)
  | [], _ => []
  | t :: l, unprocessed =>
    if 0 < unprocessed then
      let tierContributions :=
        if t.cap < processed + unprocessed then t.cap - processed else unprocessed
      (t, tierContributions) :: splitContribution processed l (unprocessed - tierContributions)
    else []

/-- The part of the founders' FREEZONE that the loop of `schedule_founder_payout` puts under a
tier, given the last tier that it came from. -/
def founderPart (contributed : Int) (last : Option IcoTier) (t : IcoTier) (unprocessed : Int) :
    Int :=
  if t.cap < contributed then
    match last with
    | some t' => t'.cap - t.cap
    | none => t.cap
  else unprocessed

/-- The loop of `schedule_founder_payout` over the tiers. -/
def splitFounder (contributed : Int) : Option IcoTier → List IcoTier → Int → List (IcoTier × Int)
  | _, [], _ => []
  | last, t :: l, unprocessed =>
    if 0 < unprocessed then
      let tierContributions := founderPart contributed last t unprocessed
      (t, tierContributions) ::
        splitFounder contributed (some t) l (unprocessed - tierContributions)
    else []

/-- The length of what two intervals have in common. -/
def overlap (a b lo hi : Int) : Int := max 0 (min b hi - max a lo)

variable {lo : Int} {e : IcoTier × Int} {index : TierIndex} {s : Nat}

/-- Each tier of a list with the cap of the tier before it. -/
def brackets : Int → List IcoTier → List (IcoTier × Int)
  | _, [] => []
  | lo, t :: l => (t, lo) :: brackets t.cap l

/-- The amount that a split assigns to a tier. -/
def assigned (parts : List (IcoTier × Int)) (t : IcoTier) : Int :=
  ((parts.filter fun e => e.1.key = t.key).map Prod.snd).sum

/-- A split of an interval gives each tier of the token its overlap with the interval, and
nothing to a tier of another token. -/
structure SplitsByOverlap (index : TierIndex) (s : Nat) (a b : Int)
    (parts : List (IcoTier × Int)) : Prop where
  own : ∀ e ∈ brackets 0 (index.own s), assigned parts e.1 = overlap a b e.2 e.1.cap
  foreign : ∀ t ∈ index.tiers, t.symbol ≠ s → assigned parts t = 0

/-- A split for the founders: over tiers of the token only, into parts that are not negative,
each the overlap of its tier, which make up the total. -/
structure FounderSplit (index : TierIndex) (s : Nat) (contributed : Int)
    (parts : List (IcoTier × Int)) : Prop where
  overlaps : SplitsByOverlap index s 0 contributed parts
  own : ∀ e ∈ parts, e.1.symbol = s
  nonneg : ∀ e ∈ parts, 0 ≤ e.2
  sum : (parts.map Prod.snd).sum = contributed

section Assigned

variable {t : IcoTier} {parts : List (IcoTier × Int)}

theorem assigned_cons (e : IcoTier × Int) (parts : List (IcoTier × Int)) (t : IcoTier) :
    assigned (e :: parts) t = (if e.1.key = t.key then e.2 else 0) + assigned parts t := by
  unfold assigned
  by_cases h : e.1.key = t.key <;> simp [h]

theorem assigned_cons_of_ne (h : e.1.key ≠ t.key) : assigned (e :: parts) t = assigned parts t := by
  rw [assigned_cons, if_neg h, zero_add]

/-- A split assigns nothing to a tier that is not in it. -/
theorem assigned_eq_zero (h : ∀ e ∈ parts, e.1.key ≠ t.key) : assigned parts t = 0 := by
  unfold assigned
  rw [filter_eq_nil_iff.mpr fun e he => by simpa using h e he]
  rfl

end Assigned

section Brackets

/-- The brackets of two lists, the second from where the first ends. -/
theorem brackets_append (lo : Int) (l m : List IcoTier) :
    ∃ lo', brackets lo (l ++ m) = brackets lo l ++ brackets lo' m ∧
      (lo' = lo ∨ ∃ t ∈ l, lo' = t.cap) := by
  induction l generalizing lo with
  | nil => exact ⟨lo, rfl, Or.inl rfl⟩
  | cons t l ih =>
    obtain ⟨lo', heq, hlo'⟩ := ih t.cap
    refine ⟨lo', by rw [cons_append, brackets, brackets, heq, cons_append], Or.inr ?_⟩
    rcases hlo' with rfl | ⟨t', ht', rfl⟩
    · exact ⟨t, mem_cons_self, rfl⟩
    · exact ⟨t', mem_cons_of_mem _ ht', rfl⟩

theorem mem_of_mem_brackets {l : List IcoTier} (h : e ∈ brackets lo l) : e.1 ∈ l := by
  induction l generalizing lo with
  | nil => cases h
  | cons t l ih =>
    rcases mem_cons.mp h with rfl | h
    · exact mem_cons_self
    · exact mem_cons_of_mem _ (ih h)

/-- The bracket of a tier starts at the cap of an earlier one, or at the first of them. -/
theorem le_of_mem_brackets {l : List IcoTier}
    (hlo : ∀ t ∈ l, lo ≤ t.cap) (hl : l.Pairwise fun t t' => t.cap < t'.cap)
    (h : e ∈ brackets lo l) : lo ≤ e.2 := by
  induction l generalizing lo with
  | nil => cases h
  | cons t l ih =>
    rw [pairwise_cons] at hl
    rcases mem_cons.mp h with rfl | h
    · exact le_rfl
    · exact (hlo t mem_cons_self).trans (ih (fun t' ht' => (hl.1 t' ht').le) hl.2 h)

end Brackets

section Contribution

variable {processed : Int} {t : IcoTier} {l m : List IcoTier} {u : Int}

theorem splitContribution_of_nonpos (hu : u ≤ 0) : splitContribution processed l u = [] := by
  cases l with
  | nil => rfl
  | cons t l => rw [splitContribution, if_neg (not_lt.mpr hu)]

/-- A tier takes its part up to its cap. -/
theorem splitContribution_cons (hu : 0 < u) : splitContribution processed (t :: l) u =
    (t, if t.cap < processed + u then t.cap - processed else u) ::
      splitContribution processed l
        (u - if t.cap < processed + u then t.cap - processed else u) := by
  rw [splitContribution, if_pos hu]

/-- The tiers of a split are tiers of the index. -/
theorem mem_of_mem_splitContribution (h : e ∈ splitContribution processed l u) : e.1 ∈ l := by
  induction l generalizing u with
  | nil => cases h
  | cons t l ih =>
    by_cases hu : 0 < u
    · rw [splitContribution_cons hu] at h
      rcases mem_cons.mp h with rfl | h
      · exact mem_cons_self
      · exact mem_cons_of_mem _ (ih h)
    · rw [splitContribution_of_nonpos (not_lt.mp hu)] at h
      cases h

/-- Nothing is assigned to a tier that the loop does not come to. -/
theorem assigned_splitContribution_of_before (h : ∀ t' ∈ l, t.Before t') :
    assigned (splitContribution processed l u) t = 0 :=
  assigned_eq_zero fun e he => (h e.1 (mem_of_mem_splitContribution he)).key_ne.symm

/-- At most one cap lies strictly within the interval, and none once a cap above its start has
been passed. -/
def OneInside (a b lo : Int) (l : List IcoTier) : Prop :=
  ∀ t ∈ l, a < t.cap → t.cap < b → lo ≤ a ∧ ∀ t' ∈ l, t.cap < t'.cap → b ≤ t'.cap

/-- The loop gives each tier its overlap when at most one cap lies within the contribution. -/
theorem splitContribution_fair {b : Int} (hsorted : (l ++ m).Pairwise IcoTier.Before)
    (hcaps : l.Pairwise fun t t' => t.cap < t'.cap) (hlo : ∀ t ∈ l, lo ≤ t.cap)
    (hge : ∀ t ∈ l, processed ≤ t.cap) (hend : processed < b) (hone : OneInside processed b lo l)
    (hlast : lo < b → ∃ t ∈ l, b ≤ t.cap) (hu : u = b - max lo processed ∨ b ≤ lo ∧ u = 0) :
    (∀ e ∈ brackets lo l, assigned (splitContribution processed (l ++ m) u) e.1 =
      overlap processed b e.2 e.1.cap) ∧
      ∀ e ∈ splitContribution processed (l ++ m) u, e.1 ∈ l := by
  induction l generalizing lo u with
  | nil =>
    have hdone : u ≤ 0 := by
      by_contra hpos
      have hlob : lo < b := by omega
      obtain ⟨t, ht, -⟩ := hlast hlob
      cases ht
    rw [splitContribution_of_nonpos hdone]
    exact ⟨nofun, nofun⟩
  | cons t l ih =>
    rw [cons_append, pairwise_cons] at hsorted
    rw [pairwise_cons] at hcaps
    have hge_t := hge t mem_cons_self
    have hlo_t := hlo t mem_cons_self
    by_cases hub : b ≤ lo
    · -- the contribution has ended
      have hdone : u ≤ 0 := by omega
      rw [splitContribution_of_nonpos hdone]
      refine ⟨fun e he => ?_, nofun⟩
      have hge_lo := le_of_mem_brackets hlo (pairwise_cons.mpr hcaps) he
      unfold overlap
      rw [show assigned [] e.1 = 0 from rfl]
      omega
    · have hu' : u = b - max lo processed := by omega
      have hupos : 0 < u := by omega
      have hpart : (if t.cap < processed + u then t.cap - processed else u) =
          overlap processed b lo t.cap := by
        unfold overlap
        by_cases hin : processed < t.cap ∧ t.cap < b
        · have hle := (hone t mem_cons_self hin.1 hin.2).1
          split_ifs <;> omega
        · split_ifs <;> omega
      rw [cons_append, splitContribution_cons hupos, hpart]
      have hnext : OneInside processed b t.cap l := by
        intro t' ht' ha hb
        have hlt := hcaps.1 t' ht'
        refine ⟨?_, fun t'' ht'' hlt' =>
          (hone t' (mem_cons_of_mem _ ht') ha hb).2 t'' (mem_cons_of_mem _ ht'') hlt'⟩
        by_contra hgt
        have hout := (hone t mem_cons_self (not_le.mp hgt) (hlt.trans hb)).2 t'
          (mem_cons_of_mem _ ht') hlt
        omega
      have hlast' : t.cap < b → ∃ t' ∈ l, b ≤ t'.cap := by
        intro hlt
        obtain ⟨t', ht', hb⟩ := hlast (by omega)
        rcases mem_cons.mp ht' with rfl | ht'
        · omega
        · exact ⟨t', ht', hb⟩
      have hu_next : u - overlap processed b lo t.cap = b - max t.cap processed ∨
          b ≤ t.cap ∧ u - overlap processed b lo t.cap = 0 := by
        clear hlast hlast'
        unfold overlap
        omega
      obtain ⟨hfair, hmem⟩ := ih hsorted.2 hcaps.2 (fun t' ht' => (hcaps.1 t' ht').le)
        (fun t' ht' => hge t' (mem_cons_of_mem _ ht')) hnext hlast' hu_next
      refine ⟨fun e he => ?_, fun e he => ?_⟩
      · rcases mem_cons.mp he with rfl | he
        · rw [assigned_cons, if_pos rfl, assigned_splitContribution_of_before hsorted.1, add_zero]
        · have hne : t.key ≠ e.1.key :=
            (hsorted.1 e.1 (mem_append_left _ (mem_of_mem_brackets he))).key_ne
          rw [assigned_cons_of_ne hne]
          exact hfair e he
      · rcases mem_cons.mp he with rfl | he
        · exact mem_cons_self
        · exact mem_cons_of_mem _ (hmem e he)

/-- Two caps strictly within the contribution break the split. -/
theorem oneInside_of_splitContribution {b : Int} (hsorted : (l ++ m).Pairwise IcoTier.Before)
    (hcaps : l.Pairwise fun t t' => t.cap < t'.cap)
    (hge : ∀ t ∈ l, processed ≤ t.cap) (hend : processed < b) (hlo : lo ≤ processed)
    (hfair : ∀ e ∈ brackets lo l,
      assigned (splitContribution processed (l ++ m) (b - processed)) e.1 =
        overlap processed b e.2 e.1.cap) :
    OneInside processed b lo l := by
  induction l generalizing lo with
  | nil => exact nofun
  | cons t l ih =>
    rw [cons_append, pairwise_cons] at hsorted
    rw [pairwise_cons] at hcaps
    have hge_t := hge t mem_cons_self
    rw [cons_append, splitContribution_cons (by omega)] at hfair
    by_cases hout : b ≤ t.cap
    · -- no cap lies within
      intro t' ht' _ hb
      rcases mem_cons.mp ht' with rfl | ht'
      · omega
      · have hlt := hcaps.1 t' ht'
        omega
    · rw [if_pos (by omega)] at hfair
      rcases hge_t.eq_or_lt with heq | hlt
      · -- the interval of the first tier ends where the contribution starts
        have hrest : ∀ e ∈ brackets t.cap l,
            assigned (splitContribution processed (l ++ m) (b - processed)) e.1 =
              overlap processed b e.2 e.1.cap := by
          intro e he
          have hne : t.key ≠ e.1.key :=
            (hsorted.1 e.1 (mem_append_left _ (mem_of_mem_brackets he))).key_ne
          have h := hfair e (mem_cons_of_mem _ he)
          rw [assigned_cons_of_ne hne, show b - processed - (t.cap - processed) = b - processed by
            omega] at h
          exact h
        have hone := ih hsorted.2 hcaps.2 (fun t' ht' => hge t' (mem_cons_of_mem _ ht'))
          heq.symm.le hrest
        intro t' ht' ha hb
        rcases mem_cons.mp ht' with rfl | ht'
        · omega
        · refine ⟨hlo, fun t'' ht'' hlt' => ?_⟩
          rcases mem_cons.mp ht'' with rfl | ht''
          · omega
          · exact (hone t' ht' ha hb).2 t'' ht'' hlt'
      · -- the first cap is within: the second tier shows whether another one is
        have hnone : ∀ t' ∈ l, b ≤ t'.cap := by
          cases l with
          | nil => exact fun t' ht' => absurd ht' not_mem_nil
          | cons r l =>
            rw [pairwise_cons] at hcaps
            rw [cons_append, pairwise_cons] at hsorted
            have hr := hcaps.1 r mem_cons_self
            have hsecond := hfair (r, t.cap) (mem_cons_of_mem _ mem_cons_self)
            have hrkey : t.key ≠ r.key := (hsorted.1 r (by simp)).key_ne
            rw [assigned_cons_of_ne hrkey, cons_append, splitContribution_cons (by omega),
              assigned_cons, if_pos rfl,
              assigned_splitContribution_of_before hsorted.2.1, add_zero] at hsecond
            have hb : b ≤ r.cap := by
              simp only [overlap] at hsecond
              split_ifs at hsecond <;> omega
            intro t' ht'
            rcases mem_cons.mp ht' with rfl | ht'
            · exact hb
            · have := hcaps.2.1 t' ht'
              omega
        intro t' ht' _ hb
        refine ⟨hlo, fun t'' ht'' hlt' => ?_⟩
        rcases mem_cons.mp ht' with rfl | ht'
        · rcases mem_cons.mp ht'' with rfl | ht''
          · omega
          · exact hnone t'' ht''
        · have := hnone t' ht'
          omega

/-- The tiers of a token below and from an amount on. -/
theorem own_eq_append (index : TierIndex) (s : Nat) (amount : Int) :
    index.own s = ((index.own s).filter fun t => t.cap < amount) ++
      (index.own s).filter fun t => amount ≤ t.cap := by
  have hmono : ∀ t t' : IcoTier, t.cap < t'.cap → decide (t'.cap < amount) = true →
      decide (t.cap < amount) = true := by
    intro t t' hlt h
    simp only [decide_eq_true_iff] at h ⊢
    omega
  have htake := SortedRange.takeWhile_eq_filter (index.own_sorted s) hmono
  have hdrop := SortedRange.dropWhile_eq_filter (index.own_sorted s) hmono
  have hnot : (fun t : IcoTier => !decide (t.cap < amount)) = fun t => decide (amount ≤ t.cap) := by
    funext t
    rw [← decide_not]
    exact decide_eq_decide.mpr not_lt
  rw [hnot] at hdrop
  rw [← htake, ← hdrop, takeWhile_append_dropWhile]

/-- A hard cap is the cap of a tier. -/
theorem exists_hardCap {hardCap : Int}
    (h : index.hardCap s = some hardCap) : ∃ t ∈ index.own s, t.cap = hardCap := by
  obtain ⟨t, ht, hcap⟩ := Option.map_eq_some_iff.mp h
  exact ⟨t, mem_of_getLast? ht, hcap⟩

/-- The part of a contribution that is assigned to each tier is its overlap with the interval of
the tier exactly when at most one cap of the token lies strictly within the contribution. -/
theorem splitContribution_overlap_iff (index : TierIndex) (s : Nat) (earlier : List Int)
    (c hardCap : Int) (hearlier : ∀ x ∈ earlier, 0 < x) (hc : 0 < c)
    (hcap : index.hardCap s = some hardCap) (hfits : earlier.sum + c ≤ hardCap) :
    SplitsByOverlap index s earlier.sum (earlier.sum + c)
        (splitContribution earlier.sum (index.lowerBound s earlier.sum) c) ↔
      ∀ t ∈ index.own s, ∀ t' ∈ index.own s,
        earlier.sum < t.cap → t.cap < t'.cap → earlier.sum + c ≤ t'.cap := by
  have hnonneg : 0 ≤ earlier.sum := sum_nonneg fun x hx => (hearlier x hx).le
  generalize earlier.sum = p at hfits hnonneg ⊢
  have hbound := index.lowerBound_eq s p
  have hsorted : (index.lowerBound s p).Pairwise IcoTier.Before :=
    index.sorted.sublist (dropWhile_sublist _)
  have hown := own_eq_append index s p
  have hcaps := index.own_sorted s
  have hlow : ∀ t ∈ (index.own s).filter fun t => t.cap < p, t.cap < p :=
    fun t ht => by simpa using (mem_filter.mp ht).2
  have hge : ∀ t ∈ (index.own s).filter fun t => p ≤ t.cap, p ≤ t.cap :=
    fun t ht => by simpa using (mem_filter.mp ht).2
  obtain ⟨lo, hbrackets, hlo⟩ := brackets_append 0 ((index.own s).filter fun t => t.cap < p)
    ((index.own s).filter fun t => p ≤ t.cap)
  have hlop : lo ≤ p := by
    rcases hlo with rfl | ⟨t, ht, rfl⟩
    · exact hnonneg
    · exact (hlow t ht).le
  rw [← hown] at hbrackets
  rw [hbound] at hsorted ⊢
  have hrest := hcaps.filter fun t => decide (p ≤ t.cap)
  constructor
  · intro hsplit t ht t' ht' hp hlt
    have hone := oneInside_of_splitContribution (b := p + c) hsorted hrest hge (by omega) hlop
      (by
        intro e he
        rw [add_sub_cancel_left]
        exact hsplit.own e (hbrackets ▸ mem_append_right _ he))
    by_contra hout
    have hin := hone t (mem_filter.mpr ⟨ht, by simpa using hp.le⟩) hp (by omega)
    have := hin.2 t' (mem_filter.mpr ⟨ht', by simp; omega⟩) hlt
    omega
  · intro hone
    obtain ⟨last, hlast, hlastcap⟩ := exists_hardCap hcap
    have hfair := splitContribution_fair (u := c) hsorted hrest
      (fun t ht => hlop.trans (hge t ht)) hge (show p < p + c by omega)
      (fun t ht hp hin => ⟨hlop, fun t' ht' => hone t (mem_of_mem_filter ht) t'
        (mem_of_mem_filter ht') hp⟩)
      (fun _ => ⟨last, mem_filter.mpr ⟨hlast, by simp; omega⟩, by omega⟩)
      (Or.inl (by omega))
    constructor
    · intro e he
      rw [hbrackets] at he
      rcases mem_append.mp he with he | he
      · -- such a tier is not in the split
        have hlt := hlow e.1 (mem_of_mem_brackets he)
        rw [assigned_eq_zero]
        · unfold overlap
          omega
        · intro e' he' hkey
          have hge' := hge e'.1 (hfair.2 e' he')
          have hcapeq : e'.1.cap = e.1.cap := congrArg Prod.snd hkey
          omega
      · exact hfair.1 e he
    · intro t _ hs
      refine assigned_eq_zero fun e he hkey => hs ?_
      have hmem := mem_of_mem_filter (hfair.2 e he)
      rw [← (TierIndex.mem_own.mp hmem).2]
      exact (congrArg Prod.fst hkey).symm

/-- A unit that gives the FREEZONE to the market maker and the tokens to the contributor. -/
def plainUnit : GenerationUnit where
  freezoneUnit := [(.marketMaker, 1)]
  tokenUnit := [(.contributor, 1)]
  freezone_routes := by decide
  token_routes := by decide
  freezone_ne_nil := by decide
  freezone_valid := by decide
  token_valid := by decide

/-- A tier of a token with that unit. -/
def plainTier (s : Nat) (cap : Fin 100) : IcoTier where
  symbol := s
  cap := cap
  unit := plainUnit
  cap_nonneg := by omega
  cap_le := by
    have := cap.isLt
    unfold maxShareSupply
    omega

/-- Three tiers of a token, followed by one of another. -/
def threeTiers : TierIndex where
  tiers := [plainTier 7 10, plainTier 7 20, plainTier 7 30, plainTier 8 5]
  sorted := by decide

theorem splitContribution_overlap_of_one_cap :
    SplitsByOverlap threeTiers 7 5 15 (splitContribution 5 (threeTiers.lowerBound 7 5) 10) := by
  refine (splitContribution_overlap_iff threeTiers 7 [5] 10 30 (by decide) (by decide) rfl
    (by decide)).mpr ?_
  decide

/-- A contribution of 25 over caps at 10, 20 and 30 assigns 15 to the second tier, whose interval
has length 10. -/
theorem splitContribution_over_two_caps :
    ¬ SplitsByOverlap threeTiers 7 0 25 (splitContribution 0 (threeTiers.lowerBound 7 0) 25) := by
  intro h
  have hsecond := h.own (plainTier 7 20, 10) (mem_cons_of_mem _ mem_cons_self)
  revert hsecond
  decide

end Contribution

section Founder

variable {contributed : Int} {last : Option IcoTier} {t : IcoTier} {l : List IcoTier} {u : Int}

theorem splitFounder_of_nonpos (hu : u ≤ 0) : splitFounder contributed last l u = [] := by
  cases l with
  | nil => rfl
  | cons t l => rw [splitFounder, if_neg (not_lt.mpr hu)]

/-- A tier takes the part of the founder. -/
theorem splitFounder_cons (hu : 0 < u) : splitFounder contributed last (t :: l) u =
    (t, founderPart contributed last t u) ::
      splitFounder contributed (some t) l (u - founderPart contributed last t u) := by
  rw [splitFounder, if_pos hu]

/-- A tier whose cap the total does not exceed takes what is left. -/
theorem splitFounder_of_le (hu : 0 < u) (hcap : contributed ≤ t.cap) :
    splitFounder contributed last (t :: l) u = [(t, u)] := by
  have hpart : founderPart contributed last t u = u := if_neg (not_lt.mpr hcap)
  rw [splitFounder_cons hu, hpart, sub_self, splitFounder_of_nonpos le_rfl]

/-- The first tier of the index takes its cap. -/
theorem founderPart_none (hcap : t.cap < contributed) :
    founderPart contributed none t u = t.cap := by
  rw [founderPart, if_pos hcap]

/-- The tiers of the token open the index, and at most one of their caps is below the total. -/
def FoundersCovered (index : TierIndex) (s : Nat) (contributed : Int) : Prop :=
  contributed = 0 ∨
    (∃ t ∈ index.tiers.head?, t.symbol = s) ∧
      ∀ t ∈ index.own s, ∀ t' ∈ index.own s, t.cap < t'.cap → contributed ≤ t'.cap

/-- Where the index opens with a tier of the token and has a later one, the second tier of the
index is of the token as well. -/
theorem second_own {t' : IcoTier} (hsorted : (t :: l).Pairwise IcoTier.Before)
    (ht : t.symbol = s) (ht' : t' ∈ l) (hs : t'.symbol = s) :
    ∃ r m, l = r :: m ∧ r.symbol = s ∧ t.cap < r.cap ∧ r.cap ≤ t'.cap := by
  cases l with
  | nil => cases ht'
  | cons r m =>
    rw [pairwise_cons, pairwise_cons] at hsorted
    have htr := hsorted.1 r mem_cons_self
    refine ⟨r, m, rfl, ?_⟩
    unfold IcoTier.Before at htr
    rcases mem_cons.mp ht' with rfl | ht'
    · exact ⟨hs, by omega, le_rfl⟩
    · have hrt := hsorted.2.1 t' ht'
      unfold IcoTier.Before at hrt
      exact ⟨by omega, by omega, by omega⟩

/-- A tier whose bracket starts after the total has no overlap and no part. -/
theorem assigned_eq_overlap_of_le {parts : List (IcoTier × Int)}
    (hparts : ∀ e ∈ parts, e.1.cap ≤ lo) (hlo : contributed ≤ lo)
    (hl : l.Pairwise fun t t' => t.cap < t'.cap) (hcap : ∀ t ∈ l, lo < t.cap) :
    ∀ e ∈ brackets lo l, assigned parts e.1 = overlap 0 contributed e.2 e.1.cap := by
  intro e he
  have hge := le_of_mem_brackets (fun t ht => (hcap t ht).le) hl he
  have hgt := hcap e.1 (mem_of_mem_brackets he)
  rw [assigned_eq_zero]
  · unfold overlap
    omega
  · intro e' he' hkey
    have hle := hparts e' he'
    have hcapeq : e'.1.cap = e.1.cap := congrArg Prod.snd hkey
    omega

/-- Only the tiers of the own symbol have to be compared. -/
theorem SplitsByOverlap.of_own {parts : List (IcoTier × Int)}
    (hown : ∀ e ∈ brackets 0 (index.own s),
      assigned parts e.1 = overlap 0 contributed e.2 e.1.cap)
    (hparts : ∀ e ∈ parts, e.1.symbol = s) : SplitsByOverlap index s 0 contributed parts := by
  refine ⟨hown, fun t _ hs => assigned_eq_zero fun e he hkey => hs ?_⟩
  rw [← hparts e he]
  exact (congrArg Prod.fst hkey).symm

/-- Under the condition the loop makes a fair split. -/
theorem founderSplit_of_covered {hardCap : Int}
    (hcap : index.hardCap s = some hardCap) (hnonneg : 0 ≤ contributed)
    (hle : contributed ≤ hardCap) (h : FoundersCovered index s contributed) :
    FounderSplit index s contributed (splitFounder contributed none index.tiers contributed) := by
  rcases hnonneg.eq_or_lt with rfl | hpos
  · rw [splitFounder_of_nonpos le_rfl]
    refine ⟨SplitsByOverlap.of_own (fun e _ => ?_) (by simp), by simp, by simp, rfl⟩
    rw [show assigned [] e.1 = 0 from rfl, overlap]
    omega
  obtain ⟨⟨t, hhead, hs⟩, hone⟩ := h.resolve_left hpos.ne'
  obtain ⟨last, hlast, hlastcap⟩ := exists_hardCap hcap
  obtain ⟨hlastmem, hlasts⟩ := TierIndex.mem_own.mp hlast
  obtain ⟨l, hl⟩ : ∃ l, index.tiers = t :: l := head?_eq_some_iff.mp hhead
  have hown : index.own s = t :: l.filter fun t => t.symbol = s := by
    rw [TierIndex.own, hl, filter_cons_of_pos (by simpa using hs)]
  have hcaps := index.own_sorted s
  have hsorted := index.sorted
  rw [hown] at hcaps hone
  rw [hl] at hsorted hlastmem ⊢
  rw [pairwise_cons] at hcaps
  have ht0 := t.cap_nonneg
  by_cases hfirst : contributed ≤ t.cap
  · -- the total ends in the first tier
    rw [splitFounder_of_le hpos hfirst]
    refine ⟨SplitsByOverlap.of_own ?_ (by simpa using hs), by simpa using hs,
      by simpa using hpos.le,
      by simp⟩
    rw [hown, brackets, forall_mem_cons]
    refine ⟨?_, assigned_eq_overlap_of_le (by simp) hfirst hcaps.2 hcaps.1⟩
    rw [assigned_cons, if_pos rfl, show assigned [] t = 0 from rfl, overlap]
    dsimp only
    omega
  · -- the total ends in the second tier
    have hmem : last ∈ l := by
      rcases mem_cons.mp hlastmem with rfl | hmem
      · omega
      · exact hmem
    obtain ⟨r, m, rfl, hrs, htr, -⟩ := second_own hsorted hs hmem hlasts
    rw [filter_cons_of_pos (by simpa using hrs)] at hown hcaps hone
    have hsecond := hone t mem_cons_self r (by simp) htr
    rw [pairwise_cons] at hcaps
    rw [splitFounder_cons hpos, founderPart_none (not_le.mp hfirst),
      splitFounder_of_le (by omega) hsecond]
    have hsymbols : ∀ e ∈ [(t, t.cap), (r, contributed - t.cap)], e.1.symbol = s := by
      simp [hs, hrs]
    refine ⟨SplitsByOverlap.of_own ?_ hsymbols, hsymbols, by simp; omega, by simp⟩
    have hne : t.key ≠ r.key := (pairwise_cons.mp hsorted).1 r mem_cons_self |>.key_ne
    rw [hown, brackets, brackets, forall_mem_cons, forall_mem_cons]
    refine ⟨?_, ?_, assigned_eq_overlap_of_le (by simp [htr.le]) hsecond hcaps.2.2 hcaps.2.1⟩
    · rw [assigned_cons, if_pos rfl, assigned_cons_of_ne hne.symm,
        show assigned [] t = 0 from rfl, overlap]
      dsimp only
      omega
    · rw [assigned_cons_of_ne hne, assigned_cons, if_pos rfl,
        show assigned [] r = 0 from rfl, overlap]
      dsimp only
      omega

/-- The founders' FREEZONE is split fairly exactly when the tiers of the token open the index and
at most one of their caps is below the total. -/
theorem splitFounder_fair_iff (index : TierIndex) (s : Nat) (contributed hardCap : Int)
    (hcap : index.hardCap s = some hardCap) (hnonneg : 0 ≤ contributed)
    (hle : contributed ≤ hardCap) :
    FounderSplit index s contributed (splitFounder contributed none index.tiers contributed) ↔
      FoundersCovered index s contributed := by
  refine ⟨fun h => ?_, founderSplit_of_covered hcap hnonneg hle⟩
  rcases hnonneg.eq_or_lt with rfl | hpos
  · exact .inl rfl
  obtain ⟨last, hlast, -⟩ := exists_hardCap hcap
  obtain ⟨hlastmem, -⟩ := TierIndex.mem_own.mp hlast
  obtain ⟨t, l, hl⟩ := exists_cons_of_ne_nil (ne_nil_of_mem hlastmem)
  have hsorted := index.sorted
  rw [hl] at h hsorted
  rw [splitFounder_cons hpos] at h
  have hs : t.symbol = s := h.own _ mem_cons_self
  refine .inr ⟨⟨t, by rw [hl]; rfl, hs⟩, fun t1 ht1 t2 ht2 hlt => ?_⟩
  obtain ⟨hmem1, hs1⟩ := TierIndex.mem_own.mp ht1
  obtain ⟨hmem2, hs2⟩ := TierIndex.mem_own.mp ht2
  rw [hl] at hmem1 hmem2
  by_contra hin
  have htt1 : t.cap ≤ t1.cap := by
    rcases mem_cons.mp hmem1 with rfl | hmem
    · exact le_rfl
    · have hb := (pairwise_cons.mp hsorted).1 t1 hmem
      unfold IcoTier.Before at hb
      omega
  have hmem : t2 ∈ l := by
    rcases mem_cons.mp hmem2 with rfl | hmem
    · omega
    · exact hmem
  obtain ⟨r, m, rfl, -, htr, hrt2⟩ := second_own hsorted hs hmem hs2
  rw [founderPart_none (by omega), splitFounder_cons (by omega),
    founderPart, if_pos (by omega)] at h
  have hneg := h.nonneg (r, t.cap - r.cap) (mem_cons_of_mem _ mem_cons_self)
  omega

theorem splitFounder_fair_of_two_tiers :
    FounderSplit threeTiers 7 15 (splitFounder 15 none threeTiers.tiers 15) := by
  refine (splitFounder_fair_iff threeTiers 7 15 30 rfl (by decide) (by decide)).mpr
    (Or.inr ⟨?_, ?_⟩)
  · exact ⟨plainTier 7 10, rfl, rfl⟩
  · decide

/-- A total of 25 over caps at 10, 20 and 30 gives the second tier minus 10. -/
theorem splitFounder_over_two_caps :
    ¬ FounderSplit threeTiers 7 25 (splitFounder 25 none threeTiers.tiers 25) := by
  intro h
  have hneg := h.nonneg (plainTier 7 20, -10) (mem_cons_of_mem _ mem_cons_self)
  revert hneg
  decide

end Founder

end Freezone.Chain.Tokens
