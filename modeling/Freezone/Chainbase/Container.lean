import Mathlib

/-!
# Uniquely keyed object containers

The `multi_index_container` behind one object type: objects stored under their
id, with a list of unique secondary indices given by their key extractors. An
insertion that meets an occupied key leaves the container unchanged; a
modification that does so fails and erases the modified object. Non-unique
indices never refuse an object and are not represented.
-/

namespace Freezone.Chainbase

open Std

/-- Objects by id, iterated in id order. -/
abbrev Objects (V : Type) := ExtTreeMap Nat V compare

variable {V K : Type} [DecidableEq K]

/-- Two values share the key of some unique secondary index. -/
def collides (keys : List (V → K)) (v w : V) : Bool := keys.any fun key => key v == key w

theorem collides_comm (keys : List (V → K)) (v w : V) : collides keys v w = collides keys w v := by
  unfold collides
  congr 1
  funext key
  exact Bool.beq_comm

/-- Live objects in which no unique secondary key is held twice. -/
structure Container (keys : List (V → K)) where
  /-- The stored values, by object id. -/
  objects : Objects V
  /-- No two objects share the key of a unique secondary index. -/
  unique : ∀ {i j : Nat} {v w : V}, objects[i]? = some v → objects[j]? = some w → i ≠ j →
    collides keys v w = false

namespace Container

variable {keys : List (V → K)}

variable {c : Container keys} {id : Nat} {v : V}

/-- A container is determined by its objects. -/
@[ext] theorem ext {d : Container keys} (h : ∀ i : Nat, c.objects[i]? = d.objects[i]?) : c = d := by
  obtain ⟨co, cu⟩ := c
  obtain ⟨d, du⟩ := d
  have he : co = d := ExtTreeMap.ext_getElem? h
  subst he
  rfl

/-- The container without objects. -/
def empty (keys : List (V → K)) : Container keys where
  objects := ∅
  unique := by simp

/-- Some object other than `id` holds a unique key of `v`. -/
def taken (c : Container keys) (id : Nat) (v : V) : Bool :=
  c.objects.toList.any fun p => p.1 != id && collides keys v p.2

/-- A key is free if no other object has it. -/
theorem taken_eq_false_iff : c.taken id v = false ↔
      ∀ {j : Nat} {w : V}, c.objects[j]? = some w → j ≠ id → collides keys v w = false := by
  simp only [taken, List.any_eq_false, Bool.and_eq_true, bne_iff_ne, not_and,
    Bool.not_eq_true, Prod.forall, ExtTreeMap.mem_toList_iff_getElem?_eq_some]

/-- Store `v` under `id`, replacing what is stored there. -/
def put (c : Container keys) (id : Nat) (v : V) (h : c.taken id v = false) : Container keys where
  objects := c.objects.insert id v
  unique := by
    rw [taken_eq_false_iff] at h
    intro i j w u hi hj hne
    simp only [ExtTreeMap.getElem?_insert, LawfulEqCmp.compare_eq_iff_eq] at hi hj
    by_cases hii : id = i <;> by_cases hjj : id = j
    · exact absurd (hii.symm.trans hjj) hne
    · rw [if_pos hii, Option.some.injEq] at hi
      rw [if_neg hjj] at hj
      exact hi ▸ h hj (Ne.symm hjj)
    · rw [if_neg hii] at hi
      rw [if_pos hjj, Option.some.injEq] at hj
      rw [collides_comm]
      exact hj ▸ h hi (Ne.symm hii)
    · simp only [hii, hjj, if_false] at hi hj
      exact c.unique hi hj hne

/-- `erase`: drop the object stored under `id`. -/
def erase (c : Container keys) (id : Nat) : Container keys where
  objects := c.objects.erase id
  unique := by
    intro i j v w hi hj hne
    simp only [ExtTreeMap.getElem?_erase, Option.ite_none_left_eq_some] at hi hj
    exact c.unique hi.2 hj.2 hne

/-- `emplace`: refused when the id or a unique secondary key is already held. -/
def emplace (c : Container keys) (id : Nat) (v : V) : Option (Container keys) :=
  if h : id ∉ c.objects ∧ c.taken id v = false then some (c.put id v h.2) else none

/-- `modify`: reports success; on a held key the modified object itself is erased. -/
def modify (c : Container keys) (id : Nat) (v : V) : Bool × Container keys :=
  if h : c.taken id v = false then (true, c.put id v h) else (false, c.erase id)

@[simp] theorem put_objects (h : c.taken id v = false) :
    (c.put id v h).objects = c.objects.insert id v := rfl

@[simp] theorem erase_objects : (c.erase id).objects = c.objects.erase id := rfl

/-- A successful insertion stored a fresh id whose keys were free. -/
theorem emplace_eq_some_iff {d : Container keys} : c.emplace id v = some d ↔
      ∃ h : c.taken id v = false, c.objects[id]? = none ∧ d = c.put id v h := by
  by_cases h : id ∉ c.objects ∧ c.taken id v = false
  · have hn : c.objects[id]? = none := ExtTreeMap.getElem?_eq_none h.1
    rw [emplace, dif_pos h, Option.some.injEq]
    exact ⟨fun he => ⟨h.2, hn, he.symm⟩, fun ⟨_, _, he⟩ => he.symm⟩
  · simp only [emplace, h, dite_false, reduceCtorEq, false_iff]
    rintro ⟨ht, hn, _⟩
    exact h ⟨by rw [ExtTreeMap.mem_iff_isSome_getElem?, hn]; simp, ht⟩

/-- A successful modification replaced the value; the keys of the new one were free. -/
theorem modify_fst_eq_true_iff :
    (c.modify id v).1 = true ↔ ∃ h : c.taken id v = false, c.modify id v =
    (true, c.put id v h) := by
  unfold modify
  split
  · rename_i h
    exact ⟨fun _ => ⟨h, rfl⟩, fun _ => rfl⟩
  · simp

end Container

end Freezone.Chainbase
