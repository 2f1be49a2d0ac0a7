import Freezone.Chain.Database.Outcomes

/-!
# Notifications of irreversible blocks

`update_last_irreversible_block` notifies every number from the last irreversible
block before the call up to the one after it. The store is undone when a block
fails or is popped, the notifications are not: a number can be notified many
times. No number is left out, however far the last irreversible block jumps, the
first notifications come in increasing order, and what is irreversible in every
state that the store can return to is not notified again.
-/

namespace Freezone.Chain.Database

open Protocol List

/-- Above `start`, a number is listed only after all the smaller ones. -/
def Climbs (start : Nat) (l : List Nat) : Prop :=
  ∀ before m after, l = before ++ m :: after → ∀ n, start < n → n < m → n ∈ before

namespace Climbs

variable {start : Nat} {l : List Nat}

theorem nil (start : Nat) : Climbs start [] := by
  intro before m after h
  simp at h

/-- One more number. -/
theorem concat (h : Climbs start l) {m : Nat} (hm : ∀ n, start < n → n < m → n ∈ l) :
    Climbs start (l ++ [m]) := by
  intro before m' after heq n hn hnm
  rcases eq_nil_or_concat after with rfl | ⟨after', last, rfl⟩
  · obtain ⟨rfl, hlast⟩ := append_inj' heq rfl
    obtain rfl : m = m' := by simpa using hlast
    exact hm n hn hnm
  · have heq' : l ++ [m] = (before ++ m' :: after') ++ [last] := by simpa using heq
    exact h before m' after' (append_inj' heq' rfl).1 n hn hnm

/-- An interval whose lower end does not leave a gap. -/
theorem append_range' (h : Climbs start l) {old : Nat} (hold : ∀ n, start < n → n ≤ old → n ∈ l)
    (count : Nat) : Climbs start (l ++ List.range' old count) := by
  induction count with
  | zero => simpa using h
  | succ count ih =>
    rw [range'_1_concat, ← append_assoc]
    refine ih.concat ?_
    intro n hn hlt
    by_cases hle : n ≤ old
    · exact mem_append_left _ (hold n hn hle)
    · exact mem_append_right _ (mem_range'_1.mpr ⟨by omega, by omega⟩)

end Climbs

variable {H P W S : Type} [DecidableEq H] [HeaderHash H P]
variable {rules : Rules H P W S} {db : Database H P W S} {start : Nat}

/-- The notifications have no gap, and they reach the last irreversible block of every state that
the store can return to. -/
structure Notifies (start : Nat) (db : Database H P W S) : Prop where
  climbs : Climbs start db.notified
  covers : ∀ s ∈ db.store.states, ∀ n, start < n → n ≤ s.lastIrreversibleBlockNum →
    n ∈ db.notified

/-- A popped block. -/
theorem Notifies.popBlock (h : Notifies start db) (pinned : List (ForkItem H P)) :
    Notifies start (Exec.finalState (popBlock pinned db)) := by
  rcases popBlock_cases pinned db with ⟨block, forkDb, -, -, hok⟩ | ⟨e, herr⟩
  · rw [hok]
    exact ⟨h.climbs, fun s hs => h.covers s (db.store.states_undo_subset hs)⟩
  · rw [herr]
    exact h

section Blocks

variable [DecidableEq W]

/-- What a block notifies on a state, before it is known to be valid as a whole. -/
def notifications (rules : Rules H P W S) (b : SignedBlock H P) (s : ChainState H W S) : List Nat :=
  match rules.confirm b s with
  | none => []
  | some s' => List.range' s.lastIrreversibleBlockNum
      (s'.lastIrreversibleBlockNum + 1 - s.lastIrreversibleBlockNum)

/-- What a block applied in a session notifies. -/
theorem applyInSession_notified (rules : Rules H P W S) (pinned : List (ForkItem H P))
    (b : SignedBlock H P) (db : Database H P W S) :
    (Exec.finalState (applyInSession rules pinned b db)).notified =
      db.notified ++ notifications rules b db.store.current := by
  unfold applyInSession applyBlock notifications
  have hstart : db.store.start.current = db.store.current := rfl
  simp only [hstart]
  cases hconf : rules.confirm b db.store.current with
  | none => simp
  | some s =>
    simp only
    generalize hnot : db.notified ++ range' db.store.current.lastIrreversibleBlockNum
      (s.lastIrreversibleBlockNum + 1 - db.store.current.lastIrreversibleBlockNum) = notified
    cases hfin : rules.finish b s with
    | none => rfl
    | some s' =>
      simp only
      rcases migrateIrreversibleState_cases pinned
          { db with store := db.store.start.set s', notified := notified } with
        ⟨db', hok, -, -, hdb'⟩ | ⟨e, log, herr⟩
      · rw [hok, hdb']
        rfl
      · rw [herr]
        rfl

/-- A block that is valid on a state has notified the numbers between the two marks. -/
theorem notifications_of_evaluate {b : SignedBlock H P} {t s : ChainState H W S}
    (h : rules.evaluate b t = some s) : notifications rules b t =
      List.range' t.lastIrreversibleBlockNum
        (s.lastIrreversibleBlockNum + 1 - t.lastIrreversibleBlockNum) := by
  obtain ⟨s', hconf, hfin⟩ := Option.bind_eq_some_iff.mp h
  obtain ⟨rest, -, rfl⟩ := Option.map_eq_some_iff.mp hfin
  rw [notifications, hconf]

/-- A block notifies no number below the mark. -/
theorem mark_le_of_mem_notifications {b : SignedBlock H P} {t : ChainState H W S} {n : Nat}
    (h : n ∈ notifications rules b t) : t.lastIrreversibleBlockNum ≤ n := by
  unfold notifications at h
  split at h
  · cases h
  · exact (mem_range'_1.mp h).1

/-- A block applied in a session. -/
theorem Notifies.applyInSession (h : Notifies start db) (rules : Rules H P W S)
    (pinned : List (ForkItem H P)) (b : SignedBlock H P) :
    Notifies start (Exec.finalState (applyInSession rules pinned b db)) := by
  have hnot := applyInSession_notified rules pinned b db
  have hold := h.covers _ (Stacked.current_mem db.store)
  refine ⟨?_, ?_⟩
  · rw [hnot, notifications]
    split
    · rw [append_nil]
      exact h.climbs
    · exact h.climbs.append_range' hold _
  rw [hnot]
  rcases applyInSession_cases rules pinned b db with ⟨s, db', hok, happ⟩ | ⟨e, db', herr, hun, -⟩
  · rw [notifications_of_evaluate happ.evaluate, hok, Exec.finalState_ok, happ.store]
    intro t ht n hn hle
    rcases mem_cons.mp (Snapshots.states_commit_subset _ _ ht) with rfl | ht
    · by_cases hlow : n ≤ db.store.current.lastIrreversibleBlockNum
      · exact mem_append_left _ (hold n hn hlow)
      · exact mem_append_right _ (mem_range'_1.mpr ⟨by omega, by omega⟩)
    · exact mem_append_left _ (h.covers t ht n hn hle)
  · rw [herr, Exec.finalState_error, hun.store]
    exact fun s hs n hn hle => mem_append_left _ (h.covers s hs n hn hle)

/-- A valid block does not lower the mark. -/
theorem marked_evaluate {b : SignedBlock H P} {s s' : ChainState H W S} (hb : s.Bounded)
    (hm : s.Marked) (h : rules.evaluate b s = some s') :
    s'.Bounded ∧ s'.Marked ∧ s.lastIrreversibleBlockNum ≤ s'.lastIrreversibleBlockNum := by
  obtain ⟨hprev, rest, rest', -, -, rfl⟩ := Rules.evaluate_eq_some h
  have hrest : ({ s with rest := rest } : ChainState H W S).Marked :=
    ⟨hm.mark_le, hm.confirmed_le, hm.trails⟩
  obtain ⟨hmarked, hle⟩ := hrest.confirmBlock (rules.witness b) (rules.scheduled rest)
    (hb.blockNum hprev)
  exact ⟨hb.evaluate h, ⟨hmarked.mark_le, hmarked.confirmed_le, hmarked.trails⟩, hle⟩

end Blocks

variable [Inhabited H]

/-- A database as it is opened has notified nothing and can return to no other state. -/
theorem Opened.fresh (h : Opened db) :
    db.notified = [] ∧ ∀ s ∈ db.store.states, s = db.store.current := by
  obtain ⟨s, log, -, hopen⟩ := h
  obtain ⟨hnot, hsaved⟩ : db.notified = [] ∧ db.store.saved = [] := by
    unfold openDatabase at hopen
    split at hopen
    · cases hopen
      exact ⟨rfl, rfl⟩
    split at hopen
    · cases hopen
    · split at hopen
      · cases hopen
        exact ⟨rfl, rfl⟩
      · cases hopen
  refine ⟨hnot, fun t ht => ?_⟩
  rw [Snapshots.states, hsaved] at ht
  simpa using ht

theorem Opened.notifies (h : Opened db) :
    Notifies db.store.current.lastIrreversibleBlockNum db := by
  obtain ⟨hnot, hstates⟩ := h.fresh
  refine ⟨by rw [hnot]; exact .nil _, fun t ht n hn hle => ?_⟩
  rw [hstates t ht] at hle
  omega

variable [DecidableEq W]

/-- A push. -/
theorem Notifies.afterPush (h : Notifies start db) (rules : Rules H P W S) (b : SignedBlock H P) :
    Notifies start (afterPush rules b db) :=
  pushBlock_invariant (Notifies start) (fun _ _ h => ⟨h.climbs, h.covers⟩)
    (fun pinned _ h => h.popBlock pinned) (fun pinned b _ h => h.applyInSession rules pinned b) b h

/-- A push that switches to no other branch notifies what its block notifies on the head, or
nothing. -/
theorem afterPush_notified {b : SignedBlock H P}
    (hstay : ∀ forkDb newHead first second last,
      ¬ Switches b db forkDb newHead first second last) :
    (afterPush rules b db).notified = db.notified ∨
      (afterPush rules b db).notified =
        db.notified ++ notifications rules b db.store.current := by
  unfold afterPush
  rcases pushBlock_cases rules b db with ⟨e, -, heq⟩ | ⟨forkDb, newHead, -, -, hways⟩
  · rw [heq]
    exact .inl rfl
  rcases hways with ⟨-, heq⟩ | ⟨-, ⟨-, heq⟩ | ⟨-, ⟨e, -, heq⟩ | ⟨first, second, last, hs⟩⟩⟩
  · have hnot := applyInSession_notified rules [newHead] b { db with forkDb := forkDb }
    rw [heq, extendHead]
    cases hr : applyInSession rules [newHead] b { db with forkDb := forkDb } with
    | ok _ db' =>
      rw [hr] at hnot
      exact .inr hnot
    | error e db' =>
      rw [hr] at hnot
      exact .inr hnot
  · rw [heq]
    exact .inl rfl
  · rw [heq]
    exact .inl rfl
  · exact absurd hs (hstay forkDb newHead first second last)

/-- A database to which some numbers have been notified, and from which no state can be restored
with a mark below a number. -/
structure NotifiesFrom (low : Nat) (notified : List Nat) (db : Database H P W S) : Prop where
  states : ∀ s ∈ db.store.states, s.Bounded ∧ s.Marked ∧ low ≤ s.lastIrreversibleBlockNum
  extra : ∃ extra, db.notified = notified ++ extra ∧ ∀ n ∈ extra, low ≤ n

/-- Pushes keep it. -/
theorem NotifiesFrom.afterPush {low : Nat} {notified : List Nat}
    (h : NotifiesFrom low notified db) (rules : Rules H P W S) (b : SignedBlock H P) :
    NotifiesFrom low notified (afterPush rules b db) := by
  refine pushBlock_invariant (NotifiesFrom low notified)
    (fun _ _ h => ⟨h.states, h.extra⟩) ?_ ?_ b h
  · intro pinned db h
    rcases popBlock_cases pinned db with ⟨block, forkDb, -, -, hok⟩ | ⟨e, herr⟩
    · rw [hok]
      exact ⟨fun s hs => h.states s (db.store.states_undo_subset hs), h.extra⟩
    · rw [herr]
      exact h
  · intro pinned b db h
    have hcurrent := h.states _ (Stacked.current_mem db.store)
    obtain ⟨extra, hextra, hlow⟩ := h.extra
    refine ⟨?_, extra ++ notifications rules b db.store.current, ?_, ?_⟩
    · rcases applyInSession_cases rules pinned b db with ⟨s, db', hok, happ⟩ | ⟨e,
        db', herr, hun, -⟩
      · rw [hok, Exec.finalState_ok, happ.store]
        intro t ht
        rcases mem_cons.mp (Snapshots.states_commit_subset _ _ ht) with rfl | ht
        · obtain ⟨hbounded, hmarked, hle⟩ := marked_evaluate hcurrent.1 hcurrent.2.1 happ.evaluate
          exact ⟨hbounded, hmarked, hcurrent.2.2.trans hle⟩
        · exact h.states t ht
      · rw [herr, Exec.finalState_error, hun.store]
        exact h.states
    · rw [applyInSession_notified, hextra, append_assoc]
    · intro n hn
      rcases mem_append.mp hn with hn | hn
      · exact hlow n hn
      · exact hcurrent.2.2.trans (mark_le_of_mem_notifications hn)

end Freezone.Chain.Database
