import Mathlib.Order.WellFounded

/-! Loops that run while a step is possible. A run that ends gives the result of the loop with any fuel from some
bound on. -/

namespace GraphEngine.Lib
open Relation
variable {σ : Type*} {step : σ → Option σ} {s t u : σ}

def whileLoop (step : σ → Option σ) : Nat → σ → Option σ
  | 0,_ => none
  | fuel + 1,s =>
    match step s with
    | none => some s
    | some next => whileLoop step fuel next

abbrev Steps (step : σ → Option σ) : σ → σ → Prop := ReflTransGen fun s t => step s = some t

structure Ends (step : σ → Option σ) (s t : σ) : Prop where
  steps : Steps step s t
  stops : step t = none

theorem Ends.result (ends : Ends step s t) : ∃ bound, ∀ fuel, bound ≤ fuel → whileLoop step fuel s = some t := by
  obtain ⟨steps,stops⟩ := ends
  induction steps using ReflTransGen.head_induction_on with
  | refl =>
    refine ⟨1,?_⟩
    intro fuel enough
    obtain ⟨fuel,rfl⟩ := Nat.exists_eq_add_of_le' enough
    simp [whileLoop,stops]
  | head first _ ih =>
    obtain ⟨bound,ih⟩ := ih
    refine ⟨bound + 1,?_⟩
    intro fuel enough
    obtain ⟨fuel,rfl⟩ := Nat.exists_eq_add_of_le' (Nat.le_of_add_left_le enough : 1 ≤ fuel)
    simp only [whileLoop,first]
    exact ih fuel (Nat.le_of_add_le_add_right enough)

/-- An invariant and a measure that goes down: the loop ends, and the invariant holds there. -/
theorem ends_of_wellFounded {α : Type*} {r : α → α → Prop} (wellFounded : WellFounded r) (Inv : σ → Prop)
    (measure : σ → α) (decreases : ∀ s t, Inv s → step s = some t → Inv t ∧ r (measure t) (measure s)) (start : Inv s) :
    ∃ t, Ends step s t ∧ Inv t := by
  generalize size : measure s = n
  induction n using wellFounded.induction generalizing s with
  | _ n ih =>
    cases taken : step s with
    | none => exact ⟨s,⟨.refl,taken⟩,start⟩
    | some next =>
      obtain ⟨kept,less⟩ := decreases s next start taken
      obtain ⟨t,ends,final⟩ := ih (measure next) (size ▸ less) kept rfl
      exact ⟨t,⟨.head taken ends.steps,ends.stops⟩,final⟩

end GraphEngine.Lib
