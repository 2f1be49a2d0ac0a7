import Freezone.Core.Checked

/-!
# Tables

A table holds one value under each of its keys, in the order in which the keys
came. The total of a quantity over a table changes with one entry by the change
of that entry.
-/

namespace Freezone

open List

/-- Contributions to indices, summed at one index. -/
theorem sum_map_single_apply {ι α M : Type} [DecidableEq ι] [AddCommGroup M] (l : List α)
    (g : α → ι) (f : α → M) (i : ι) : (l.map fun a => (Pi.single (g a) (f a) : ι → M)).sum i =
      ((l.filter fun a => g a = i).map f).sum := by
  induction l with
  | nil => rfl
  | cons a l ih =>
    rw [map_cons, sum_cons, Pi.add_apply, ih, filter_cons]
    by_cases ha : g a = i
    · subst ha
      simp
    · rw [Pi.single_eq_of_ne (Ne.symm ha), zero_add, if_neg (by simpa using ha)]

/-- Values under distinct keys, the oldest key first. -/
structure Table (κ ν : Type) where
  entries : List (κ × ν)
  nodup : (entries.map Prod.fst).Nodup

namespace Table

variable {κ ν : Type}

/-- The table without entries. -/
def empty : Table κ ν := ⟨[], List.nodup_nil⟩

/-- Change every value in the light of its key. -/
def mapWithKey (t : Table κ ν) (f : κ → ν → ν) : Table κ ν :=
  ⟨t.entries.map fun e => (e.1, f e.1 e.2), by
    rw [List.map_map]
    exact t.nodup⟩

/-- Keep the entries that pass a test. -/
def keep (t : Table κ ν) (p : κ → ν → Bool) : Table κ ν :=
  ⟨t.entries.filter fun e => p e.1 e.2, t.nodup.sublist (List.filter_sublist.map _)⟩

/-- Change every value. -/
def map (t : Table κ ν) (f : ν → ν) : Table κ ν :=
  ⟨t.entries.map fun e => (e.1, f e.2), by
    rw [List.map_map]
    exact t.nodup⟩

section Sum

variable {M : Type} [AddCommGroup M]

/-- The sum of what the entries contribute. -/
def sum (t : Table κ ν) (f : κ → ν → M) : M := (t.entries.map fun e => f e.1 e.2).sum

@[simp] theorem sum_empty (f : κ → ν → M) : (empty : Table κ ν).sum f = 0 := rfl

/-- Entries that contribute nothing may be dropped. -/
theorem sum_keep (t : Table κ ν) {p : κ → ν → Bool} {f : κ → ν → M}
    (h : ∀ k v, p k v = false → f k v = 0) : (t.keep p).sum f = t.sum f := by
  simp only [sum, keep]
  induction t.entries with
  | nil => rfl
  | cons e l ih =>
    rw [filter_cons]
    split_ifs with hp
    · rw [map_cons, map_cons, sum_cons, sum_cons, ih]
    · rw [map_cons, sum_cons, ih, h _ _ (by simpa using hp), zero_add]

theorem sum_mapWithKey (t : Table κ ν) (g : κ → ν → ν) (f : κ → ν → M) :
    (t.mapWithKey g).sum f = t.sum fun k v => f k (g k v) := by
  rw [sum, mapWithKey, map_map]
  rfl

end Sum

/-- The sum of a quantity over the entries. -/
def total (t : Table κ ν) (f : ν → Int) : Int := (t.entries.map fun e => f e.2).sum

@[simp] theorem total_empty (f : ν → Int) : (empty : Table κ ν).total f = 0 := rfl

theorem total_map (t : Table κ ν) (g : ν → ν) (f : ν → Int) :
    (t.map g).total f = t.total fun v => f (g v) := by
  rw [total, map, map_map]
  rfl

variable {f : ν → Int}

/-- A total stays the same when no value changes what it contributes. -/
theorem total_mapWithKey_eq (t : Table κ ν) {g : κ → ν → ν}
    (h : ∀ k v, f (g k v) = f v) : (t.mapWithKey g).total f = t.total f := by
  have hsum := t.sum_mapWithKey g fun _ => f
  simp only [h] at hsum
  exact hsum

theorem total_zero (t : Table κ ν) (h : ∀ v, f v = 0) : t.total f = 0 := by
  apply sum_eq_zero
  intro x hx
  obtain ⟨e, -, rfl⟩ := mem_map.mp hx
  exact h e.2

theorem total_const_mul (t : Table κ ν) (f : ν → Int) (c : Int) :
    (t.total fun v => c * f v) = c * t.total f := by
  rw [total, total, ← sum_map_mul_left]

variable [DecidableEq κ]

/-- The value under a key. -/
def find? (t : Table κ ν) (k : κ) : Option ν :=
  (t.entries.find? fun e => e.1 = k).map Prod.snd

variable {k : κ} {v : ν} {l : List (κ × ν)}

theorem find?_eq_some {t : Table κ ν} : t.find? k = some v ↔ (k, v) ∈ t.entries := by
  obtain ⟨l, hl⟩ := t
  simp only [find?]
  induction l with
  | nil => simp
  | cons e l ih =>
    rw [map_cons, nodup_cons] at hl
    by_cases he : e.1 = k
    · simp only [find?_cons, he, decide_true, Option.map_some, Option.some.injEq,
        mem_cons]
      constructor
      · rintro rfl
        exact .inl (by rw [← he])
      · rintro (h | h)
        · rw [← h]
        · -- the key occurs once
          exact absurd (he ▸ mem_map_of_mem (f := Prod.fst) h) hl.1
    · have hne : (k, v) ≠ e := fun h => he (by rw [← h])
      simp only [find?_cons, he, decide_false, mem_cons, hne, false_or]
      exact ih hl.2

theorem find?_eq_none {t : Table κ ν} : t.find? k = none ↔ k ∉ t.entries.map Prod.fst := by
  rw [Option.eq_none_iff_forall_ne_some]
  constructor
  · intro h hk
    obtain ⟨e, he, rfl⟩ := mem_map.mp hk
    exact h e.2 (find?_eq_some.mpr he)
  · intro h v hv
    exact h (mem_map_of_mem (f := Prod.fst) (find?_eq_some.mp hv))

/-- Put a value under a new key. -/
def insert (t : Table κ ν) (k : κ) (v : ν) : Option (Table κ ν) :=
  if h : k ∈ t.entries.map Prod.fst then none
  else some ⟨t.entries ++ [(k, v)], by
    rw [List.map_append, List.nodup_append]
    refine ⟨t.nodup, by simp, ?_⟩
    rintro a ha b hb rfl
    simp only [List.map_cons, List.map_nil, List.mem_singleton] at hb
    exact h (hb ▸ ha)⟩

theorem insert_eq_some {t t' : Table κ ν} :
    t.insert k v = some t' ↔ t.find? k = none ∧ t'.entries = t.entries ++ [(k, v)] := by
  unfold insert
  rw [find?_eq_none]
  by_cases h : k ∈ t.entries.map Prod.fst
  · simp [h]
  rw [dif_neg h]
  simp only [Option.some.injEq, h, not_false_eq_true, true_and]
  constructor
  · rintro rfl
    rfl
  intro he
  obtain ⟨l, hl⟩ := t'
  subst he
  rfl

/-- Replace the value under a key that is present. -/
def set (t : Table κ ν) (k : κ) (v : ν) : Table κ ν :=
  ⟨t.entries.map fun e => if e.1 = k then (e.1, v) else e, by
    rw [List.map_map]
    convert t.nodup using 2
    funext e
    by_cases h : e.1 = k <;> simp [h]⟩

/-- Drop a key. -/
def erase (t : Table κ ν) (k : κ) : Table κ ν :=
  ⟨t.entries.filter fun e => e.1 ≠ k, t.nodup.sublist (List.filter_sublist.map _)⟩

/-- Keep the keys with a property. -/
def restrict (t : Table κ ν) (p : κ → Prop) [DecidablePred p] : Table κ ν :=
  ⟨t.entries.filter fun e => p e.1, t.nodup.sublist (List.filter_sublist.map _)⟩

theorem find?_set_self {t : Table κ ν} {v' : ν} (h : t.find? k = some v) :
    (t.set k v').find? k = some v' := by
  rw [find?_eq_some] at h ⊢
  exact mem_map.mpr ⟨_, h, by simp⟩

theorem set_eq_self {t : Table κ ν} (h : t.find? k = some v) : t.set k v = t := by
  obtain ⟨l, hl⟩ := t
  simp only [set, mk.injEq]
  conv_rhs => rw [← map_id l]
  refine map_congr_left fun e he => ?_
  split_ifs with hk
  · -- the entry under the key is the value
    have hfind : Table.find? ⟨l, hl⟩ k = some e.2 := find?_eq_some.mpr (hk ▸ he)
    rw [h, Option.some.injEq] at hfind
    rw [hfind, id]
  · rfl

theorem set_set (t : Table κ ν) (k : κ) (v v' : ν) : (t.set k v).set k v' = t.set k v' := by
  simp only [set, map_map, mk.injEq]
  refine map_congr_left fun e _ => ?_
  by_cases hk : e.1 = k <;> simp [hk]

theorem erase_set (t : Table κ ν) (k : κ) (v : ν) : (t.set k v).erase k = t.erase k := by
  simp only [set, erase, mk.injEq]
  induction t.entries with
  | nil => rfl
  | cons e l ih =>
    by_cases hk : e.1 = k
    · simp only [map_cons, hk, if_true, filter_cons, ih]
      simp
    · simp only [map_cons, hk, if_false, filter_cons, ih]

theorem find?_set_of_ne {t : Table κ ν} {k' : κ} (h : k' ≠ k) :
    (t.set k v).find? k' = t.find? k' := by
  ext w
  simp only [find?_eq_some, set, mem_map]
  constructor
  · rintro ⟨e, he, heq⟩
    by_cases hk : e.1 = k
    · rw [if_pos hk] at heq
      exact absurd ((congrArg Prod.fst heq).symm.trans hk) h
    · rw [if_neg hk] at heq
      exact heq ▸ he
  · intro he
    exact ⟨_, he, by rw [if_neg h]⟩

theorem find?_set {t : Table κ ν} (h : t.find? k = some v) (v' : ν) (k' : κ) :
    (t.set k v').find? k' = if k' = k then some v' else t.find? k' := by
  by_cases hk : k' = k
  · rw [hk, if_pos rfl, find?_set_self h]
  · rw [if_neg hk, find?_set_of_ne hk]

theorem find?_insert {t t' : Table κ ν} {k' : κ} (h : t.insert k v = some t') :
    t'.find? k' = if k' = k then some v else t.find? k' := by
  obtain ⟨hnew, he⟩ := insert_eq_some.mp h
  ext w
  rw [find?_eq_some, he, mem_append, mem_singleton, Prod.mk.injEq]
  by_cases hk : k' = k
  · subst hk
    rw [if_pos rfl, ← find?_eq_some, hnew]
    simp [eq_comm]
  · rw [if_neg hk, find?_eq_some]
    simp [hk]

theorem find?_erase (t : Table κ ν) (k k' : κ) :
    (t.erase k).find? k' = if k' = k then none else t.find? k' := by
  ext w
  rw [find?_eq_some, erase, mem_filter, ← find?_eq_some]
  by_cases hk : k' = k <;> simp [hk]

theorem find?_restrict (t : Table κ ν) (p : κ → Prop) [DecidablePred p] (k : κ) :
    (t.restrict p).find? k = if p k then t.find? k else none := by
  ext w
  rw [find?_eq_some, restrict, mem_filter, ← find?_eq_some]
  by_cases hk : p k <;> simp [hk]

theorem find?_mapWithKey (t : Table κ ν) (f : κ → ν → ν) (k : κ) :
    (t.mapWithKey f).find? k = (t.find? k).map (f k) := by
  ext w
  rw [find?_eq_some, mapWithKey, mem_map, Option.map_eq_some_iff]
  constructor
  · rintro ⟨e, he, heq⟩
    obtain ⟨rfl, rfl⟩ := heq
    exact ⟨e.2, find?_eq_some.mpr he, rfl⟩
  · rintro ⟨v, hv, rfl⟩
    exact ⟨(k, v), find?_eq_some.mp hv, rfl⟩

theorem find?_map (t : Table κ ν) (f : ν → ν) (k : κ) :
    (t.map f).find? k = (t.find? k).map f := t.find?_mapWithKey (fun _ => f) k

/-- The keys that are present. -/
def keys (t : Table κ ν) : Finset κ := (t.entries.map Prod.fst).toFinset

theorem mem_keys {t : Table κ ν} : k ∈ t.keys ↔ (t.find? k).isSome := by
  rw [keys, mem_toFinset, ← not_iff_not, ← find?_eq_none, Option.not_isSome_iff_eq_none]

theorem keys_set (t : Table κ ν) (k : κ) (v : ν) : (t.set k v).keys = t.keys := by
  unfold keys set
  rw [map_map]
  congr 2
  funext e
  by_cases h : e.1 = k <;> simp [h]

theorem keys_erase (t : Table κ ν) (k : κ) : (t.erase k).keys = t.keys.erase k := by
  ext k'
  rw [Finset.mem_erase, mem_keys, mem_keys, find?_erase]
  by_cases hk : k' = k <;> simp [hk]

theorem keys_mapWithKey (t : Table κ ν) (f : κ → ν → ν) : (t.mapWithKey f).keys = t.keys := by
  unfold keys mapWithKey
  rw [map_map]
  rfl

theorem keys_insert {t t' : Table κ ν} (h : t.insert k v = some t') :
    t'.keys = Insert.insert k t.keys := by
  ext k'
  rw [Finset.mem_insert, mem_keys, mem_keys, find?_insert h]
  by_cases hk : k' = k <;> simp [hk]

/-- The entries around a key. -/
theorem exists_split {t : Table κ ν} (h : t.find? k = some v) :
    ∃ l r, t.entries = l ++ (k, v) :: r ∧ (∀ e ∈ l, e.1 ≠ k) ∧ ∀ e ∈ r, e.1 ≠ k := by
  obtain ⟨l, r, hs⟩ := append_of_mem (find?_eq_some.mp h)
  have hn := t.nodup
  rw [hs, map_append, map_cons, nodup_middle, nodup_cons] at hn
  have hne : ∀ e ∈ l ++ r, e.1 ≠ k := by
    intro e he hk
    apply hn.1
    rw [← map_append]
    exact mem_map.mpr ⟨e, he, hk⟩
  exact ⟨l, r, hs, fun e he => hne e (mem_append_left _ he),
    fun e he => hne e (mem_append_right _ he)⟩

section Sum

variable {M : Type} [AddCommGroup M]

variable {t : Table κ ν}

theorem sum_insert {t' : Table κ ν} (h : t.insert k v = some t')
    (f : κ → ν → M) : t'.sum f = t.sum f + f k v := by
  rw [sum, (insert_eq_some.mp h).2]
  simp [sum]

theorem sum_set (h : t.find? k = some v) (v' : ν)
    (f : κ → ν → M) : (t.set k v').sum f = t.sum f - f k v + f k v' := by
  obtain ⟨l, r, hs, hl, hr⟩ := exists_split h
  have hkeep : ∀ m : List (κ × ν), (∀ e ∈ m, e.1 ≠ k) →
      (m.map fun e => if e.1 = k then (e.1, v') else e) = m := by
    intro m hm
    conv_rhs => rw [← map_id m]
    exact map_congr_left fun e he => by rw [if_neg (hm e he), id]
  have hset : (t.set k v').entries = l ++ (k, v') :: r := by
    change (t.entries.map fun e => if e.1 = k then (e.1, v') else e) = _
    rw [hs, map_append, map_cons, hkeep l hl, hkeep r hr, if_pos rfl]
  rw [sum, sum, hset, hs]
  simp only [map_append, map_cons, sum_append, sum_cons]
  abel

theorem sum_erase (h : t.find? k = some v) (f : κ → ν → M) :
    (t.erase k).sum f = t.sum f - f k v := by
  obtain ⟨l, r, hs, hl, hr⟩ := exists_split h
  have hkeep : ∀ m : List (κ × ν), (∀ e ∈ m, e.1 ≠ k) → (m.filter fun e => e.1 ≠ k) = m := by
    intro m hm
    exact filter_eq_self.mpr fun e he => by simpa using hm e he
  have herase : (t.erase k).entries = l ++ r := by
    change (t.entries.filter fun e => e.1 ≠ k) = _
    rw [hs, filter_append, filter_cons_of_neg (by simp), hkeep l hl, hkeep r hr]
  rw [sum, sum, herase, hs]
  simp only [map_append, map_cons, sum_append, sum_cons]
  abel

/-- Each entry contributes at its own key. -/
theorem sum_single_apply (h : t.find? k = some v) (f : ν → M) :
    (t.sum fun k v => (Pi.single k (f v) : κ → M)) k = f v := by
  obtain ⟨l, r, hs, hl, hr⟩ := exists_split h
  have hdrop : ∀ m : List (κ × ν), (∀ e ∈ m, e.1 ≠ k) → (m.filter fun e => e.1 = k) = [] := by
    intro m hm
    exact filter_eq_nil_iff.mpr fun e he => by simpa using hm e he
  rw [sum, sum_map_single_apply, hs, filter_append, filter_cons_of_pos (by simp),
    hdrop l hl, hdrop r hr]
  simp

end Sum

theorem total_insert {t t' : Table κ ν} (h : t.insert k v = some t')
    (f : ν → Int) : t'.total f = t.total f + f v := sum_insert h fun _ => f

theorem total_set {t : Table κ ν} (h : t.find? k = some v) (v' : ν)
    (f : ν → Int) : (t.set k v').total f = t.total f - f v + f v' := sum_set h v' fun _ => f

theorem total_erase {t : Table κ ν} (h : t.find? k = some v) (f : ν → Int) :
    (t.erase k).total f = t.total f - f v := sum_erase h fun _ => f

/-- Every value has a property at its key. -/
def All (t : Table κ ν) (P : κ → ν → Prop) : Prop := ∀ k v, t.find? k = some v → P k v

theorem all_iff {t : Table κ ν} {P : κ → ν → Prop} : t.All P ↔ ∀ e ∈ t.entries, P e.1 e.2 :=
  ⟨fun h e he => h e.1 e.2 (find?_eq_some.mpr he), fun h k v hv => h (k, v) (find?_eq_some.mp hv)⟩

instance {t : Table κ ν} {P : κ → ν → Prop} [∀ k v, Decidable (P k v)] : Decidable (t.All P) :=
  decidable_of_iff _ all_iff.symm

section All

variable {P : κ → ν → Prop}

theorem all_empty (P : κ → ν → Prop) : (empty : Table κ ν).All P := by
  intro k v h
  cases h

variable {t : Table κ ν}

theorem All.set (h : t.All P) (hv : P k v) : (t.set k v).All P := by
  intro k' v' h'
  by_cases hk : k' = k
  · subst hk
    cases hf : t.find? k' with
    | none =>
      rw [find?_eq_some, Table.set, mem_map] at h'
      obtain ⟨e, he, heq⟩ := h'
      have he' : e.1 = k' := by
        by_cases hk : e.1 = k'
        · exact hk
        · rw [if_neg hk] at heq
          rw [heq]
      exact absurd (mem_map.mpr ⟨e, he, he'⟩) (find?_eq_none.mp hf)
    | some w =>
      rw [find?_set_self hf, Option.some.injEq] at h'
      exact h' ▸ hv
  · rw [find?_set_of_ne hk] at h'
    exact h k' v' h'

theorem All.insert {t' : Table κ ν} (h : t.All P)
    (hi : t.insert k v = some t') (hv : P k v) : t'.All P := by
  intro k' v' h'
  rw [find?_insert hi] at h'
  by_cases hk : k' = k
  · rw [if_pos hk, Option.some.injEq] at h'
    rw [hk]
    exact h' ▸ hv
  · rw [if_neg hk] at h'
    exact h k' v' h'

theorem All.erase (h : t.All P) (k : κ) : (t.erase k).All P := by
  intro k' v' h'
  rw [find?_erase] at h'
  by_cases hk : k' = k
  · rw [if_pos hk] at h'
    cases h'
  · rw [if_neg hk] at h'
    exact h k' v' h'

theorem All.keep (h : t.All P) (p : κ → ν → Bool) : (t.keep p).All P := by
  intro k v hv
  rw [find?_eq_some, Table.keep, mem_filter, ← find?_eq_some] at hv
  exact h k v hv.1

theorem All.mapWithKey (h : t.All P) {f : κ → ν → ν}
    (hf : ∀ k v, P k v → P k (f k v)) : (t.mapWithKey f).All P := by
  intro k v hv
  rw [find?_mapWithKey, Option.map_eq_some_iff] at hv
  obtain ⟨w, hw, rfl⟩ := hv
  exact hf k w (h k w hw)

end All

/-- Every value has a property. -/
def Holds (t : Table κ ν) (P : ν → Prop) : Prop := ∀ k v, t.find? k = some v → P v

theorem holds_empty (P : ν → Prop) : (empty : Table κ ν).Holds P := all_empty fun _ => P

theorem Holds.set {t : Table κ ν} {P : ν → Prop} (h : t.Holds P) (k : κ) (hv : P v) :
    (t.set k v).Holds P := All.set (P := fun _ => P) h hv

theorem Holds.insert {t t' : Table κ ν} {P : ν → Prop} (h : t.Holds P)
    (hi : t.insert k v = some t') (hv : P v) : t'.Holds P := All.insert (P := fun _ => P) h hi hv

theorem Holds.erase {t : Table κ ν} {P : ν → Prop} (h : t.Holds P) (k : κ) :
    (t.erase k).Holds P := All.erase (P := fun _ => P) h k

theorem Holds.map {t : Table κ ν} {P : ν → Prop} (h : t.Holds P) {f : ν → ν}
    (hf : ∀ v, P v → P (f v)) : (t.map f).Holds P :=
  All.mapWithKey (P := fun _ => P) h fun _ => hf

/-- A total of quantities that are nowhere negative is at least any one of them. -/
theorem le_total {t : Table κ ν} (hf : t.Holds fun v => 0 ≤ f v)
    (h : t.find? k = some v) : f v ≤ t.total f := by
  apply single_le_sum
  · intro x hx
    obtain ⟨e, he, rfl⟩ := mem_map.mp hx
    exact hf e.1 e.2 (find?_eq_some.mpr he)
  · exact mem_map.mpr ⟨(k, v), find?_eq_some.mp h, rfl⟩

theorem total_nonneg {t : Table κ ν} (hf : t.Holds fun v => 0 ≤ f v) : 0 ≤ t.total f := by
  apply sum_nonneg
  intro x hx
  obtain ⟨e, he, rfl⟩ := mem_map.mp hx
  exact hf e.1 e.2 (find?_eq_some.mpr he)

/-- Tables with the same keys and related values. -/
def Related (r : κ → ν → ν → Prop) (t t' : Table κ ν) : Prop :=
  ∀ k, Option.Rel (r k) (t.find? k) (t'.find? k)

section Related

variable {r : κ → ν → ν → Prop} {t t' t'' : Table κ ν}

theorem Related.before (h : Related r t t') {v' : ν} (hv : t'.find? k = some v') :
    ∃ v, t.find? k = some v ∧ r k v v' := by
  have hk := h k
  rw [hv] at hk
  cases hf : t.find? k with
  | none =>
    rw [hf] at hk
    cases hk
  | some v =>
    rw [hf] at hk
    cases hk with
    | some hr => exact ⟨v, rfl, hr⟩

theorem Related.after (h : Related r t t') (hv : t.find? k = some v) :
    ∃ v', t'.find? k = some v' ∧ r k v v' := by
  have hk := h k
  rw [hv] at hk
  cases hf : t'.find? k with
  | none =>
    rw [hf] at hk
    cases hk
  | some v' =>
    rw [hf] at hk
    cases hk with
    | some hr => exact ⟨v', rfl, hr⟩

theorem Related.none (h : Related r t t') (hk : t'.find? k = none) : t.find? k = none := by
  cases hf : t.find? k with
  | none => rfl
  | some v =>
    obtain ⟨v', hv', -⟩ := h.after hf
    rw [hk] at hv'
    cases hv'

theorem Related.trans {r' r'' : κ → ν → ν → Prop} (h : Related r t t') (h' : Related r' t' t'')
    (hr : ∀ k a b c, r k a b → r' k b c → r'' k a c) : Related r'' t t'' := by
  intro k
  cases hf : t''.find? k with
  | none =>
    rw [h.none (h'.none hf)]
    exact .none
  | some c =>
    obtain ⟨b, hb, hbc⟩ := h'.before hf
    obtain ⟨a, ha, hab⟩ := h.before hb
    rw [ha]
    exact .some (hr k a b c hab hbc)

theorem Related.mono {r' : κ → ν → ν → Prop} (h : Related r t t')
    (hr : ∀ k v v', r k v v' → r' k v v') : Related r' t t' := by
  intro k
  cases hf : t'.find? k with
  | none =>
    rw [h.none hf]
    exact .none
  | some v' =>
    obtain ⟨v, hv, hvv'⟩ := h.before hf
    rw [hv]
    exact .some (hr k v v' hvv')

/-- A part of the values that the relation keeps. -/
theorem Related.map_eq {β : Type} (h : Related r t t') {g : ν → β}
    (hr : ∀ k v v', r k v v' → g v' = g v) (k : κ) : (t'.find? k).map g = (t.find? k).map g := by
  cases hf : t'.find? k with
  | none => rw [h.none hf]
  | some v' =>
    obtain ⟨v, hv, hvv'⟩ := h.before hf
    rw [hv, Option.map_some, Option.map_some, hr k v v' hvv']

theorem related_refl (t : Table κ ν) (hr : ∀ k v, r k v v) : Related r t t := by
  intro k
  cases t.find? k with
  | none => exact .none
  | some v => exact .some (hr k v)

theorem related_mapWithKey (t : Table κ ν) {f : κ → ν → ν}
    (hf : ∀ k v, t.find? k = some v → r k v (f k v)) : Related r t (t.mapWithKey f) := by
  intro k
  rw [find?_mapWithKey]
  cases hk : t.find? k with
  | none => exact .none
  | some v => exact .some (hf k v hk)

theorem related_map (t : Table κ ν) {f : ν → ν}
    (hf : ∀ k v, t.find? k = some v → r k v (f v)) : Related r t (t.map f) :=
  related_mapWithKey t (f := fun _ => f) hf

theorem related_set {v' : ν} (hk : t.find? k = some v) (hv : r k v v')
    (hr : ∀ k' v, k' ≠ k → r k' v v) : Related r t (t.set k v') := by
  intro k'
  rw [find?_set hk]
  by_cases he : k' = k
  · subst he
    rw [if_pos rfl, hk]
    exact .some hv
  · rw [if_neg he]
    cases t.find? k' with
    | none => exact .none
    | some v => exact .some (hr k' v he)

end Related

/-- Entries of a table in some order, each at most once. -/
structure Selection (t : Table κ ν) (l : List (κ × ν)) : Prop where
  nodup : (l.map Prod.fst).Nodup
  find : ∀ e ∈ l, t.find? e.1 = some e.2

/-- Sorting what passes a filter selects entries. -/
theorem selection_sorted (t : Table κ ν) (p : κ × ν → Bool) (r : κ × ν → κ × ν → Prop)
    [DecidableRel r] : t.Selection ((t.entries.filter p).insertionSort r) where
  nodup := by
    have hperm := perm_insertionSort r (t.entries.filter p)
    rw [(hperm.map Prod.fst).nodup_iff]
    exact t.nodup.sublist (filter_sublist.map _)
  find e he := by
    rw [mem_insertionSort] at he
    exact find?_eq_some.mpr (mem_of_mem_filter he)

/-- What is left of a selection when its first entry has been changed or is gone. -/
theorem Selection.tail {t t' : Table κ ν} {e : κ × ν}
    (h : t.Selection (e :: l)) (ht : ∀ k, k ≠ e.1 → t'.find? k = t.find? k) : t'.Selection l where
  nodup := (nodup_cons.mp h.nodup).2
  find e' he' := by
    have hne : e'.1 ≠ e.1 := fun heq =>
      (nodup_cons.mp h.nodup).1 (heq ▸ mem_map_of_mem (f := Prod.fst) he')
    rw [ht _ hne]
    exact h.find e' (mem_cons_of_mem _ he')

theorem Selection.erase {t : Table κ ν} {e : κ × ν}
    (h : t.Selection (e :: l)) : (t.erase e.1).Selection l :=
  h.tail fun k hk => by rw [find?_erase, if_neg hk]

/-- A loop over selected entries, each of which its iteration removes: every iteration finds its
entry in the table. -/
theorem forEach_selection {σ : Type} (tab : σ → Table κ ν) {f : κ × ν → σ → Except String σ}
    {P : σ → Prop} {s s' : σ}
    (step : ∀ e ∈ l, ∀ s s', P s → (tab s).find? e.1 = some e.2 → f e s = .ok s' →
      P s' ∧ tab s' = (tab s).erase e.1)
    (hl : (tab s).Selection l) (hs : P s) (h : forEach f l s = .ok s') : P s' := by
  induction l generalizing s with
  | nil =>
    simp only [forEach] at h
    cases h
    exact hs
  | cons e l ih =>
    simp only [forEach, returns] at h
    obtain ⟨s1, h1, h2⟩ := h
    obtain ⟨hP, htab⟩ :=
      step e mem_cons_self s s1 hs (hl.find e mem_cons_self) h1
    exact ih (fun e' he' => step e' (mem_cons_of_mem _ he')) (htab ▸ hl.erase) hP h2

end Table

end Freezone
