import Mathlib

/-!
# A store with snapshots

A store holds a current state and the states saved by the sessions that are still
open, newest first, each with the revision of its session. Undoing returns to the
newest saved state and does nothing when there is none; committing forgets the
oldest saved states up to a revision. With consecutive revisions a commit is a
cut of the list of saved states.
-/

namespace Freezone

open List

/-- The state at the start of a session and the revision of the session. -/
structure Saved (σ : Type) where
  state : σ
  revision : Int

/-- A current state over the saved states of its sessions, newest first. -/
structure Snapshots (σ : Type) where
  current : σ
  revision : Int
  saved : List (Saved σ) := []

namespace Snapshots

variable {σ : Type}

variable (s : Snapshots σ)

/-- Open a session. -/
def start : Snapshots σ :=
  { s with revision := s.revision + 1, saved := ⟨s.current, s.revision + 1⟩ :: s.saved }

/-- Replace the current state. -/
def set (a : σ) : Snapshots σ := { s with current := a }

/-- Return to the newest saved state. -/
def undo : Snapshots σ :=
  match s.saved with
  | [] => s
  | newest :: older => { current := newest.state, revision := s.revision - 1, saved := older }

/-- Forget the oldest saved states up to a revision. -/
def commit (revision : Int) : Snapshots σ :=
  { s with saved := s.saved.rdropWhile fun saved => saved.revision ≤ revision }

/-- The states that undoing can lead to, the current one first. -/
def states : List σ := s.current :: s.saved.map Saved.state

/-- The store of a part of the state. -/
def map {τ : Type} (f : σ → τ) (s : Snapshots σ) : Snapshots τ where
  current := f s.current
  revision := s.revision
  saved := s.saved.map fun saved => ⟨f saved.state, saved.revision⟩

section Map

variable {τ : Type} (f : σ → τ) (s : Snapshots σ)

theorem map_start : s.start.map f = (s.map f).start := rfl

theorem map_set (a : σ) : (s.set a).map f = (s.map f).set (f a) := rfl

/-- A map of the states commutes with undoing. -/
theorem map_undo : s.undo.map f = (s.map f).undo := by
  obtain ⟨current, revision, saved⟩ := s
  cases saved <;> rfl

/-- A map of the states commutes with a commit. -/
theorem map_commit (revision : Int) : (s.commit revision).map f = (s.map f).commit revision := by
  have hcut : ∀ l : List (Saved σ),
      ((l.rdropWhile fun saved => saved.revision ≤ revision).map
        fun saved => (⟨f saved.state, saved.revision⟩ : Saved τ)) =
      (l.map fun saved => ⟨f saved.state, saved.revision⟩).rdropWhile
        fun saved => saved.revision ≤ revision := by
    intro l
    induction l using reverseRecOn with
    | nil => rfl
    | append_singleton l a ih =>
      rw [map_append, map_singleton, rdropWhile_concat, rdropWhile_concat]
      split
      · exact ih
      · rw [map_append, map_singleton]
  unfold commit map
  rw [← hcut]

end Map

/-- Undoing `k` sessions drops the first `k` states. -/
theorem iterate_undo {k : Nat} (hk : k ≤ s.saved.length) :
    (undo^[k] s).saved = s.saved.drop k ∧ (undo^[k] s).states = s.states.drop k := by
  induction k generalizing s with
  | zero => simp
  | succ k ih =>
    rw [Function.iterate_succ_apply]
    cases hs : s.saved with
    | nil => simp [hs] at hk
    | cons newest older =>
      have hundo : s.undo = ⟨newest.state, s.revision - 1, older⟩ := by rw [undo, hs]
      rw [hs, length_cons] at hk
      obtain ⟨hsaved, hstates⟩ := ih s.undo (by rw [hundo]; exact Nat.le_of_succ_le_succ hk)
      rw [hsaved, hstates, hundo, states, states, hs]
      exact ⟨rfl, rfl⟩

/-- Undoing `k` sessions makes the `k`-th state the current one. -/
theorem iterate_undo_current {k : Nat} (hk : k ≤ s.saved.length) :
    s.states[k]? = some (undo^[k] s).current := by
  have h := (iterate_undo s hk).2
  rw [← Nat.add_zero k, ← List.getElem?_drop, Nat.add_zero, ← h]
  rfl

/-- The states are those that undoing leads to. -/
theorem mem_states_iff (a : σ) : a ∈ s.states ↔ ∃ k ≤ s.saved.length, (undo^[k] s).current = a := by
  constructor
  · intro ha
    obtain ⟨k, hk⟩ := mem_iff_getElem?.mp ha
    have hlt := (List.getElem?_eq_some_iff.mp hk).1
    have hle : k ≤ s.saved.length := by simpa [states] using Nat.lt_succ_iff.mp hlt
    refine ⟨k, hle, ?_⟩
    have hcur := s.iterate_undo_current hle
    rw [hk] at hcur
    simpa using hcur.symm
  · rintro ⟨k, hk, rfl⟩
    exact mem_of_getElem? (s.iterate_undo_current hk)

/-- Undoing forgets a state. -/
theorem states_undo_subset : s.undo.states ⊆ s.states := by
  unfold undo
  split
  · exact Subset.refl _
  · rename_i newest older hs
    intro a ha
    rw [states, hs, map_cons]
    exact mem_cons_of_mem _ ha

/-- Committing forgets states. -/
theorem states_commit_subset (revision : Int) : (s.commit revision).states ⊆ s.states := by
  intro a ha
  rcases mem_cons.mp ha with rfl | ha
  · exact mem_cons_self
  · obtain ⟨saved, hsaved, rfl⟩ := mem_map.mp ha
    exact mem_cons_of_mem _
      (mem_map_of_mem (( rdropWhile_prefix _ _).subset hsaved))

/-- Undoing a session gives back the store before it. -/
theorem undo_start_set (a : σ) : (s.start.set a).undo = s := by
  simp [start, set, undo]

/-- Merge the newest session into the one before it. The only session is dropped and leaves
the revision. -/
def squash : Snapshots σ :=
  match s.saved with
  | [] => s
  | [_] => { s with saved := [] }
  | _ :: older => { s with revision := s.revision - 1, saved := older }

/-- Below its current state, `t` holds states of `s` under the revisions they have there. -/
def Keeps (s t : Snapshots σ) : Prop :=
  ∀ (k : Nat) a, t.states[k + 1]? = some a →
    ∃ j : Nat, s.states[j]? = some a ∧ s.revision - j = t.revision - (k + 1)

namespace Keeps

variable (s : Snapshots σ)

theorem refl : s.Keeps s := fun k _ ha => ⟨k + 1, ha, by omega⟩

theorem start : s.Keeps s.start := fun k _ ha => ⟨k, ha, by simp only [Snapshots.start]; omega⟩

theorem set (a : σ) : s.Keeps (s.set a) := fun k _ ha =>
    ⟨k + 1, ha, by simp only [Snapshots.set]; omega⟩

theorem undo : s.Keeps s.undo := by
  intro k a ha
  unfold Snapshots.undo at ha ⊢
  split at ha
  · exact refl s k a ha
  · rename_i hs
    exact ⟨k + 2, by rw [states, hs]; exact ha, by simp only; omega⟩

theorem commit (revision : Int) : s.Keeps (s.commit revision) := by
  intro k a ha
  obtain ⟨dropped, hs⟩ := rdropWhile_prefix (fun saved => saved.revision ≤ revision) s.saved
  refine ⟨k + 1, ?_, by simp only [Snapshots.commit]; omega⟩
  have hlt := (List.getElem?_eq_some_iff.mp ha).1
  rw [states, ← hs, map_append, ← cons_append]
  exact (getElem?_append_left hlt).trans ha

theorem squash : s.Keeps s.squash := by
  intro k a ha
  unfold Snapshots.squash at ha ⊢
  split at ha
  · exact refl s k a ha
  · cases ha
  · rename_i hs
    exact ⟨k + 2, by rw [states, hs]; exact ha, by simp only; omega⟩

end Keeps

/-- `last` gives the state that the store last had at each revision it can return to. -/
def Aligned (last : Int → σ) : Prop :=
  ∀ (k : Nat) a, s.states[k]? = some a → last (s.revision - k) = a

/-- A store that keeps states stays aligned when only its own revision gets a new state. -/
theorem Aligned.keeps {s t : Snapshots σ} {last last' : Int → σ} (h : s.Aligned last)
    (hkeeps : s.Keeps t) (hcurrent : last' t.revision = t.current)
    (hlast : ∀ n < t.revision, last' n = last n) : t.Aligned last' := by
  intro k a ha
  cases k with
  | zero =>
    obtain rfl : t.current = a := by simpa [states] using ha
    simpa using hcurrent
  | succ k =>
    obtain ⟨j, hj, hrev⟩ := hkeeps k a ha
    rw [hlast _ (by omega), ← h j a hj, hrev]
    rfl

/-- Dropping from the end the items that meet a condition, when those are the items from some
position on. -/
theorem rdropWhile_eq_take {α : Type} {p : α → Bool} {l : List α} {n : Nat}
    (hkeep : ∀ k (hk : k < l.length), k < n → p l[k] = false)
    (hdrop : ∀ k (hk : k < l.length), n ≤ k → p l[k] = true) : l.rdropWhile p = l.take n := by
  induction l using reverseRecOn with
  | nil => simp
  | append_singleton l a ih =>
    by_cases hn : n ≤ l.length
    · have ha : p a = true := by
        have h := hdrop l.length (by simp) hn
        simpa using h
      rw [rdropWhile_concat_pos p l a ha, take_append_of_le_length hn]
      apply ih
      · intro k hk hkn
        have h := hkeep k (by simp; omega) hkn
        simpa [List.getElem_append_left hk] using h
      · intro k hk hkn
        have h := hdrop k (by simp; omega) hkn
        simpa [List.getElem_append_left hk] using h
    · have ha : ¬ p a = true := by
        have h := hkeep l.length (by simp) (by omega)
        simpa using h
      rw [rdropWhile_concat_neg p l a ha, take_of_length_le (by simp; omega)]

/-- The revisions of the sessions count down from the revision of the store. -/
def Consecutive : Prop :=
  ∀ (k : Nat) (saved : Saved σ), s.saved[k]? = some saved → saved.revision = s.revision - k

namespace Consecutive

variable {s : Snapshots σ}

theorem start (h : s.Consecutive) : s.start.Consecutive := by
  intro k saved hk
  cases k with
  | zero =>
    obtain rfl : ⟨s.current, s.revision + 1⟩ = saved := by simpa [Snapshots.start] using hk
    simp [Snapshots.start]
  | succ k =>
    have hk' : s.saved[k]? = some saved := by simpa [Snapshots.start] using hk
    have hrev := h k saved hk'
    simp only [Snapshots.start]
    omega

theorem set (h : s.Consecutive) (a : σ) : (s.set a).Consecutive := h

theorem undo (h : s.Consecutive) : s.undo.Consecutive := by
  unfold Snapshots.undo
  split
  · exact h
  rename_i newest older hs
  intro k saved hk
  have hrev := h (k + 1) saved (by rw [hs]; exact hk)
  simp only
  omega

/-- Committing keeps the sessions with a greater revision, the first ones of the list. -/
theorem commit_saved (h : s.Consecutive) (revision : Int) :
    (s.commit revision).saved = s.saved.take (s.revision - revision).toNat := by
  have hrev : ∀ k (hk : k < s.saved.length), s.saved[k].revision = s.revision - k := fun k hk =>
    h k _ (List.getElem?_eq_getElem hk)
  apply rdropWhile_eq_take
  · intro k hk hkn
    have := hrev k hk
    simp
    omega
  · intro k hk hkn
    have := hrev k hk
    simp
    omega

end Consecutive

end Snapshots

end Freezone
