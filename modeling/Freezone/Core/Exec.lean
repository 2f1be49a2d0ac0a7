import Mathlib

/-!
# Loops and stateful computations whose exceptions keep the state

`EStateM ε σ α` runs in a state `σ` that an exception leaves as it is at the
throw. These are the rules used to follow such a computation to one of its two
exits, through sequencing and through loops over a list, and the rules for a pure
loop each of whose iterations touches the part of the state under its own key.
-/

namespace Freezone.Exec

open List

variable {ε σ α β : Type}

/-- The state at either exit. -/
def finalState : EStateM.Result ε σ α → σ
  | .ok _ s => s
  | .error _ s => s

@[simp] theorem finalState_ok (a : α) (s : σ) :
    finalState (.ok a s : EStateM.Result ε σ α) = s := rfl

@[simp] theorem finalState_error (e : ε) (s : σ) :
    finalState (.error e s : EStateM.Result ε σ α) = s := rfl

/-- A sequence that returns ran both parts to their return. -/
theorem bind_eq_ok {x : EStateM ε σ α} {f : α → EStateM ε σ β} {s s' : σ} {b : β} :
    (x >>= f).run s = .ok b s' ↔ ∃ a s1, x.run s = .ok a s1 ∧ (f a).run s1 = .ok b s' := by
  rw [EStateM.run_bind]
  cases x.run s <;> simp

variable {l : List α}

/-- A property kept by every iteration that returns is kept by a loop that returns. -/
theorem forM_invariant {f : α → EStateM ε σ Unit} {P : σ → Prop} {s s' : σ}
    (step : ∀ a ∈ l, ∀ s s', P s → (f a).run s = .ok () s' → P s')
    (hs : P s) (h : (forM l f).run s = .ok () s') : P s' := by
  induction l generalizing s with
  | nil =>
    simp only [forM_nil, EStateM.run_pure, EStateM.Result.ok.injEq, true_and] at h
    exact h ▸ hs
  | cons a l ih =>
    rw [forM_cons, bind_eq_ok] at h
    obtain ⟨_, s1, h1, h2⟩ := h
    exact ih (fun b hb => step b (mem_cons_of_mem _ hb))
      (step a mem_cons_self s s1 hs h1) h2

section Keyed

variable {χ : Type} {f : σ → α → σ} (view : σ → χ) (touches : α → Prop)

/-- A loop none of whose items touches the viewed part leaves it unchanged. -/
theorem foldl_view_of_untouched (hother : ∀ s a, ¬ touches a → view (f s a) = view s)
    (hl : ∀ a ∈ l, ¬ touches a) (s : σ) : view (l.foldl f s) = view s := by
  induction l generalizing s with
  | nil => rfl
  | cons a l ih =>
    rw [foldl_cons, ih fun b hb => hl b (mem_cons_of_mem _ hb)]
    exact hother s a (hl a mem_cons_self)

/-- A loop with one item that touches the viewed part changes it once. -/
theorem foldl_view_of_touched (hother : ∀ s a, ¬ touches a → view (f s a) = view s)
    {g : χ → χ} {a : α} (htouch : touches a) (hg : ∀ s, view (f s a) = g (view s))
    (ha : a ∈ l) (hone : l.Pairwise fun b c => ¬ (touches b ∧ touches c)) (s : σ) :
    view (l.foldl f s) = g (view s) := by
  induction l generalizing s with
  | nil => exact absurd ha not_mem_nil
  | cons b l ih =>
    rw [foldl_cons]
    by_cases hb : touches b
    · -- the item that touches the view is the first one, and no later one does
      have hrest : ∀ c ∈ l, ¬ touches c := fun c hc ht =>
        rel_of_pairwise_cons hone hc ⟨hb, ht⟩
      have hab : a = b := (mem_cons.mp ha).resolve_right fun hal => hrest a hal htouch
      rw [foldl_view_of_untouched view touches hother hrest, ← hab, hg]
    · have hal : a ∈ l := (mem_cons.mp ha).resolve_left fun hab => hb (hab ▸ htouch)
      rw [ih hal hone.of_cons, hother s b hb]

end Keyed

end Freezone.Exec
