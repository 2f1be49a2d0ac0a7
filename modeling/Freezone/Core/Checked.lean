import Mathlib

/-!
# Computations that check and throw

A function of a state that may throw returns `Except String σ`; a throw discards
the state. These are the rules used to take apart such a function that returned,
and to carry a relation between states along a loop.
-/

namespace Freezone

variable {α β σ : Type}

/-- Throw the text unless the condition holds. -/
def ensure (c : Prop) [Decidable c] (text : String) : Except String Unit :=
  if c then .ok () else .error text

@[simp] theorem ensure_eq_ok {c : Prop} [Decidable c] {text : String} {u : Unit} :
    ensure c text = .ok u ↔ c := by
  unfold ensure
  by_cases h : c <;> simp [h]

/-- A value that must be present. -/
def orThrow (text : String) : Option α → Except String α
  | some a => .ok a
  | none => .error text

@[simp] theorem orThrow_eq_ok {text : String} {o : Option α} {a : α} :
    orThrow text o = .ok a ↔ o = some a := by
  cases o <;> simp [orThrow]

/-- A sequence that returns ran both parts to their return. -/
@[simp] theorem Checked.bind_eq_ok {ε : Type} {x : Except ε α} {f : α → Except ε β} {b : β} :
    (x >>= f) = .ok b ↔ ∃ a, x = .ok a ∧ f a = .ok b := by
  cases x with
  | error e => simp [Bind.bind, Except.bind]
  | ok a => simp [Bind.bind, Except.bind]

/-- When a computation returns a value: the rules that take it apart, used together. -/
theorem returns : (∀ {α β : Type} {x : Except String α} {f : α → Except String β} {b : β},
      (x >>= f) = .ok b ↔ ∃ a, x = .ok a ∧ f a = .ok b) ∧
    (∀ {c : Prop} [Decidable c] {text : String} {u : Unit}, ensure c text = .ok u ↔ c) ∧
    (∀ {α : Type} {text : String} {o : Option α} {a : α}, orThrow text o = .ok a ↔ o = some a) ∧
    ∀ {α : Type} {a b : α}, (.ok a : Except String α) = .ok b ↔ a = b :=
  ⟨Checked.bind_eq_ok, ensure_eq_ok, orThrow_eq_ok, iff_of_eq (Except.ok.injEq _ _)⟩

theorem error_ite_eq_ok {ε : Type} {c : Prop} [Decidable c] {e : ε} {x : Except ε α} {a : α} :
    (if c then .error e else x) = .ok a ↔ ¬ c ∧ x = .ok a := by
  by_cases h : c <;> simp [h]

/-- A function mapped over a list returns if it returns for each element. -/
theorem Checked.mapM_eq_ok {f : α → Except String β} {l : List α} {l' : List β} :
    l.mapM f = .ok l' ↔ List.Forall₂ (fun a b => f a = .ok b) l l' := by
  induction l generalizing l' with
  | nil =>
    simp [pure, Except.pure, eq_comm]
  | cons a l ih =>
    rw [List.mapM_cons]
    simp only [Checked.bind_eq_ok, pure, Except.pure, Except.ok.injEq, ih]
    constructor
    · rintro ⟨b, hb, m, hm, rfl⟩
      exact .cons hb hm
    · rintro (_ | ⟨hb, hm⟩)
      exact ⟨_, hb, _, hm, rfl⟩

/-- Run a function for each item in turn. -/
def forEach (f : α → σ → Except String σ) : List α → σ → Except String σ
  | [], s => .ok s
  | a :: l, s => do
    let s ← f a s
    forEach f l s

/-- What every iteration that returns keeps is kept by a loop that returns. -/
theorem forEach_invariant {f : α → σ → Except String σ} {P : σ → Prop} {l : List α} {s s' : σ}
    (step : ∀ a ∈ l, ∀ s s', P s → f a s = .ok s' → P s') (hs : P s)
    (h : forEach f l s = .ok s') : P s' := by
  induction l generalizing s with
  | nil =>
    simp only [forEach] at h
    cases h
    exact hs
  | cons a l ih =>
    simp only [forEach, Checked.bind_eq_ok] at h
    obtain ⟨s1, h1, h2⟩ := h
    exact ih (fun b hb => step b (List.mem_cons_of_mem _ hb))
      (step a List.mem_cons_self s s1 hs h1) h2

end Freezone
