import Mathlib

/-!
# Queues ordered by time

Entries get consecutive ids and are kept in the order of their times, those of
one time in the order of their ids. An entry that is pushed with a time not before
that of another one ends up behind it.
-/

namespace Freezone

open List

/-- An item with its time and the id it got when it was pushed. -/
structure TimedEntry (α : Type) where
  time : Nat
  id : Nat
  item : α
  deriving DecidableEq

namespace TimedEntry

variable {α : Type}

/-- The order of the entries: by time, then by id. -/
def Before (e f : TimedEntry α) : Prop := e.time < f.time ∨ e.time = f.time ∧ e.id < f.id

instance (e f : TimedEntry α) : Decidable (e.Before f) :=
  inferInstanceAs (Decidable (e.time < f.time ∨ e.time = f.time ∧ e.id < f.id))

variable {e : TimedEntry α}

theorem Before.time_le {f : TimedEntry α} (h : e.Before f) : e.time ≤ f.time := by
  unfold Before at h
  omega

theorem Before.of_time_le {f : TimedEntry α} (ht : e.time ≤ f.time) (hid : e.id < f.id) :
    e.Before f := by
  unfold Before
  omega

/-- Put an entry behind those whose time is not after its own. -/
def insert (e : TimedEntry α) (l : List (TimedEntry α)) : List (TimedEntry α) :=
  l.filter (fun f => f.time ≤ e.time) ++ e :: l.filter (fun f => e.time < f.time)

theorem mem_insert {f : TimedEntry α} {l : List (TimedEntry α)} :
    f ∈ insert e l ↔ f = e ∨ f ∈ l := by
  simp only [insert, mem_append, mem_cons, mem_filter, decide_eq_true_eq]
  constructor
  · rintro (⟨h, -⟩ | h | ⟨h, -⟩)
    · exact .inr h
    · exact .inl h
    · exact .inr h
  · rintro (h | h)
    · exact .inr (Or.inl h)
    · by_cases ht : f.time ≤ e.time
      · exact .inl ⟨h, ht⟩
      · exact .inr (Or.inr ⟨h, Nat.lt_of_not_le ht⟩)

theorem insert_perm (e : TimedEntry α) (l : List (TimedEntry α)) : (insert e l).Perm (e :: l) := by
  have hneg : l.filter (fun f => e.time < f.time) =
      l.filter (fun f => !decide (f.time ≤ e.time)) := by
    apply filter_congr
    intro f _
    by_cases h : f.time ≤ e.time
    · simp [h]
    · simp [h, Nat.lt_of_not_le h]
  rw [insert, hneg]
  exact perm_middle.trans (Perm.cons e (filter_append_perm _ l))

/-- Inserting and filtering commute for an entry that passes the filter. -/
theorem filter_insert {p : TimedEntry α → Bool} (he : p e = true)
    (l : List (TimedEntry α)) : (insert e l).filter p = insert e (l.filter p) := by
  rw [insert, filter_append, filter_cons_of_pos he, filter_filter, filter_filter,
    insert, filter_filter, filter_filter]
  congr 1
  · exact filter_congr fun _ _ => Bool.and_comm _ _
  · congr 1
    exact filter_congr fun _ _ => Bool.and_comm _ _

/-- A list in order stays in order when the inserted entry is the youngest. -/
theorem pairwise_insert {l : List (TimedEntry α)} (hl : l.Pairwise Before)
    (hid : ∀ f ∈ l, f.time ≤ e.time → f.id < e.id) : (insert e l).Pairwise Before := by
  rw [insert, pairwise_append, pairwise_cons]
  refine ⟨hl.filter _, ⟨?_, hl.filter _⟩, ?_⟩
  · intro f hf
    exact .inl (by simpa using (mem_filter.mp hf).2)
  intro f hf g hg
  obtain ⟨hmem, hle⟩ := mem_filter.mp hf
  have hle : f.time ≤ e.time := by simpa using hle
  rcases mem_cons.mp hg with rfl | hg
  · exact .of_time_le hle (hid f hmem hle)
  · have hlt : e.time < g.time := by simpa using (mem_filter.mp hg).2
    exact .inl (Nat.lt_of_le_of_lt hle hlt)

end TimedEntry

open TimedEntry

/-- The queue: the entries in order, and the id that the next entry gets. -/
structure TimedQueue (α : Type) where
  nextId : Nat
  entries : List (TimedEntry α)
  ordered : entries.Pairwise Before
  fresh : ∀ e ∈ entries, e.id < nextId
  distinct : (entries.map TimedEntry.id).Nodup

namespace TimedQueue

variable {α : Type}

variable {q : TimedQueue α}

theorem ext_entries {r : TimedQueue α} (hid : q.nextId = r.nextId) (he : q.entries = r.entries) :
    q = r := by
  cases q
  cases r
  cases hid
  cases he
  rfl

/-- A queue without entries. -/
def empty : TimedQueue α where
  nextId := 0
  entries := []
  ordered := List.Pairwise.nil
  fresh := by simp
  distinct := List.nodup_nil

/-- The first entry. -/
def first (q : TimedQueue α) : Option (TimedEntry α) := q.entries.head?

/-- Add an item. -/
def push (q : TimedQueue α) (item : α) (time : Nat) : TimedQueue α where
  nextId := q.nextId + 1
  entries := insert ⟨time, q.nextId, item⟩ q.entries
  ordered := pairwise_insert q.ordered fun f hf _ => q.fresh f hf
  fresh := by
    intro f hf
    rcases mem_insert.mp hf with rfl | hf
    · exact Nat.lt_succ_self _
    · exact Nat.lt_succ_of_lt (q.fresh f hf)
  distinct := by
    rw [((insert_perm _ q.entries).map TimedEntry.id).nodup_iff, List.map_cons, List.nodup_cons]
    refine ⟨?_, q.distinct⟩
    intro hmem
    obtain ⟨f, hf, hid⟩ := List.mem_map.mp hmem
    exact absurd hid (Nat.ne_of_lt (q.fresh f hf))

/-- Add items in order. -/
def pushAll (q : TimedQueue α) (items : List (α × Nat)) : TimedQueue α :=
  items.foldl (fun q p => q.push p.1 p.2) q

/-- Remove an entry. -/
def erase (q : TimedQueue α) (id : Nat) : TimedQueue α where
  nextId := q.nextId
  entries := q.entries.filter fun e => e.id ≠ id
  ordered := q.ordered.filter _
  fresh := fun e he => q.fresh e (List.mem_filter.mp he).1
  distinct := (List.filter_sublist.map _).nodup q.distinct

/-- Remove the entries at the front whose time is before `time`. -/
def dropBefore (q : TimedQueue α) (time : Nat) : TimedQueue α where
  nextId := q.nextId
  entries := q.entries.dropWhile fun e => e.time < time
  ordered := q.ordered.sublist (List.dropWhile_sublist _)
  fresh := fun e he => q.fresh e ((List.dropWhile_sublist _).subset he)
  distinct := ((List.dropWhile_sublist _).map _).nodup q.distinct

/-- Whether an item is in the queue. -/
def holds [DecidableEq α] (q : TimedQueue α) (item : α) : Bool :=
  q.entries.any fun e => e.item = item

@[simp] theorem push_nextId (q : TimedQueue α) (item : α) (time : Nat) :
    (q.push item time).nextId = q.nextId + 1 := rfl

@[simp] theorem push_entries (q : TimedQueue α) (item : α) (time : Nat) :
    (q.push item time).entries = insert ⟨time, q.nextId, item⟩ q.entries := rfl

@[simp] theorem erase_nextId (q : TimedQueue α) (id : Nat) : (q.erase id).nextId = q.nextId := rfl

@[simp] theorem pushAll_nil (q : TimedQueue α) : q.pushAll [] = q := rfl

@[simp] theorem pushAll_cons (q : TimedQueue α) (p : α × Nat) (items : List (α × Nat)) :
    q.pushAll (p :: items) = (q.push p.1 p.2).pushAll items := rfl

theorem first_eq_some (h : q.first = some e) : ∃ rest, q.entries = e :: rest := by
  cases hq : q.entries with
  | nil => simp [first, hq] at h
  | cons f rest =>
    obtain rfl : f = e := by simpa [first, hq] using h
    exact ⟨rest, rfl⟩

/-- Erasing the first entry leaves the others. -/
theorem erase_first {rest : List (TimedEntry α)}
    (h : q.entries = e :: rest) : (q.erase e.id).entries = rest := by
  have hd := q.distinct
  rw [h, map_cons, nodup_cons] at hd
  change q.entries.filter (fun f => f.id ≠ e.id) = rest
  rw [h, filter_cons_of_neg (by simp), filter_eq_self]
  intro f hf
  have hne : f.id ≠ e.id := fun heq => hd.1 (heq ▸ mem_map_of_mem hf)
  simpa using hne

/-- Erasing an entry removes its id. -/
theorem erase_ids (q : TimedQueue α) (id : Nat) :
    (q.erase id).entries.map TimedEntry.id = (q.entries.map TimedEntry.id).erase id := by
  rw [q.distinct.erase_eq_filter, filter_map]
  refine congrArg _ (filter_congr ?_)
  intro e _
  by_cases h : e.id = id <;> simp [h]

/-- The ids that pushing hands out. -/
theorem pushAll_ids (q : TimedQueue α) (items : List (α × Nat)) :
    (q.pushAll items).nextId = q.nextId + items.length ∧
      ((q.pushAll items).entries.map TimedEntry.id).Perm
        (q.entries.map TimedEntry.id ++ List.range' q.nextId items.length) := by
  induction items generalizing q with
  | nil => simp
  | cons p items ih =>
    obtain ⟨hnext, hperm⟩ := ih (q.push p.1 p.2)
    refine ⟨by rw [pushAll_cons, hnext, push_nextId, length_cons]; omega, ?_⟩
    have hpush : ((q.push p.1 p.2).entries.map TimedEntry.id).Perm
        (q.nextId :: q.entries.map TimedEntry.id) :=
      (insert_perm _ q.entries).map TimedEntry.id
    rw [pushAll_cons, length_cons, range'_succ]
    exact hperm.trans ((hpush.append_right _).trans perm_middle.symm)

/-- An entry that is dropped has a time before the limit. -/
theorem mem_dropBefore (he : e ∈ q.entries) (time : Nat) :
    e ∈ (q.dropBefore time).entries ∨ e.time < time := by
  change e ∈ q.entries.dropWhile _ ∨ _
  rw [← takeWhile_append_dropWhile (p := fun e => decide (e.time < time)) (l := q.entries),
    mem_append] at he
  rcases he with he | he
  · exact .inr (by simpa using mem_takeWhile_imp he)
  · exact .inl he

theorem holds_iff [DecidableEq α] {item : α} :
    q.holds item = true ↔ ∃ e ∈ q.entries, e.item = item := by
  simp [holds]

/-- The items after pushing. -/
theorem holds_pushAll [DecidableEq α] {items : List (α × Nat)} {item : α} :
    (q.pushAll items).holds item = true ↔ q.holds item = true ∨ item ∈ items.map Prod.fst := by
  induction items generalizing q with
  | nil => simp
  | cons p items ih =>
    rw [pushAll_cons, ih, map_cons, mem_cons, ← or_assoc]
    refine or_congr_left ?_
    simp only [holds_iff, push_entries, mem_insert]
    constructor
    · rintro ⟨e, rfl | he, rfl⟩
      · exact .inr rfl
      · exact .inl ⟨e, he, rfl⟩
    · rintro (⟨e, he, rfl⟩ | rfl)
      · exact ⟨e, Or.inr he, rfl⟩
      · exact ⟨_, Or.inl rfl, rfl⟩

theorem erase_pushAll (q : TimedQueue α) (items : List (α × Nat)) {id : Nat} (hid : id < q.nextId) :
    (q.pushAll items).erase id = (q.erase id).pushAll items := by
  induction items generalizing q with
  | nil => rfl
  | cons p items ih =>
    rw [pushAll_cons, pushAll_cons, ih _ (Nat.lt_succ_of_lt hid)]
    -- a pushed entry and an older one that is erased do not meet
    refine congrArg (pushAll · items) (ext_entries rfl ?_)
    exact filter_insert (by simpa using Nat.ne_of_gt hid) q.entries

/-- Pushing only adds entries. -/
theorem mem_pushAll_of_mem (he : e ∈ q.entries)
    (items : List (α × Nat)) : e ∈ (q.pushAll items).entries := by
  induction items generalizing q with
  | nil => exact he
  | cons p items ih => exact ih (mem_insert.mpr (Or.inr he))

end TimedQueue

end Freezone
