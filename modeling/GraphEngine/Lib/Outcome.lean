import Mathlib.Data.Option.Basic
import Mathlib.Order.Basic

/-! Inversion of computations that may fail: what is known of the parts when the whole gives a result. -/

namespace GraphEngine.Lib
variable {ε α β : Type}

theorem ok_bind (value : α) (next : α → Except ε β) : ((.ok value : Except ε α) >>= next) = next value := rfl

theorem bind_ok {first : Except ε α} {next : α → Except ε β} {result : β} (ok : (first >>= next) = .ok result) :
    ∃ value, first = .ok value ∧ next value = .ok result := by
  cases first with
  | error error => cases ok
  | ok value => exact ⟨value,rfl,ok⟩

theorem check_ok {bad : Prop} [Decidable bad] {error : ε} {next : Except ε α} {result : α}
    (ok : (if bad then .error error else next) = .ok result) : ¬bad ∧ next = .ok result := by
  split at ok
  case isTrue => cases ok
  case isFalse fine => exact ⟨fine,ok⟩

theorem guard_some {p : Prop} [Decidable p] {next : Unit → Option α} {value : α}
    (ok : (guard p >>= next) = some value) : p ∧ next () = some value := by
  by_cases holds : p
  · simp only [guard,holds,if_true] at ok
    exact ⟨holds,ok⟩
  · simp only [guard,holds,if_false] at ok
    cases ok

end GraphEngine.Lib
