import Mathlib.Order.Lattice.Nat

/-! Lists of half-open segments that tile an interval from left to right, and what is left of such a list when its
first segments are passed over. -/

namespace GraphEngine.Lib
variable {α : Type*} {lower upper : α → Int} {a b c : Int} {xs ys : List α} {x : α}

def Tiles (lower upper : α → Int) : Int → List α → Int → Prop
  | a,[],b => a = b
  | a,x :: xs,b => lower x = a ∧ a < upper x ∧ Tiles lower upper (upper x) xs b

namespace Tiles

theorem append (left : Tiles lower upper a xs b) (right : Tiles lower upper b ys c) : Tiles lower upper a (xs ++ ys) c := by
  induction xs generalizing a with
  | nil =>
    cases left
    exact right
  | cons x xs ih => exact ⟨left.1,left.2.1,ih left.2.2⟩

theorem of_append (tiles : Tiles lower upper a (xs ++ ys) c) : ∃ b, Tiles lower upper a xs b ∧ Tiles lower upper b ys c := by
  induction xs generalizing a with
  | nil => exact ⟨a,rfl,tiles⟩
  | cons x xs ih =>
    obtain ⟨b,left,right⟩ := ih tiles.2.2
    exact ⟨b,⟨tiles.1,tiles.2.1,left⟩,right⟩

variable (tiles : Tiles lower upper a xs b)
include tiles

theorem le : a ≤ b := by
  induction xs generalizing a with
  | nil => exact tiles.le
  | cons x xs ih => exact tiles.2.1.le.trans (ih tiles.2.2)

theorem bounds (inside : x ∈ xs) : a ≤ lower x ∧ lower x < upper x ∧ upper x ≤ b := by
  induction xs generalizing a with
  | nil => cases inside
  | cons y xs ih =>
    obtain ⟨start,positive,rest⟩ := tiles
    cases inside with
    | head => exact ⟨start.ge,start ▸ positive,rest.le⟩
    | tail _ inside =>
      obtain ⟨after,proper,below⟩ := ih rest inside
      exact ⟨positive.le.trans after,proper,below⟩

theorem dropWhile_reaches (nonempty : xs ≠ []) (point : Int) (below : point ≤ b) :
    ∃ passed x rest, xs = passed ++ x :: rest ∧ (∀ y ∈ passed, upper y < point) ∧ point ≤ upper x ∧
      ∀ ys : List α, (xs ++ ys).dropWhile (fun x => decide (¬point ≤ upper x)) = x :: rest ++ ys := by
  induction xs generalizing a with
  | nil => exact absurd rfl nonempty
  | cons x xs ih =>
    obtain ⟨start,positive,rest⟩ := tiles
    by_cases reached : point ≤ upper x
    · refine ⟨[],x,xs,rfl,List.forall_mem_nil _,reached,?_⟩
      intro ys
      simp [reached]
    · have more : xs ≠ [] := by
        rintro rfl
        cases rest
        exact reached below
      obtain ⟨passed,y,after,rfl,behind,reaches,drops⟩ := ih rest more
      refine ⟨x :: passed,y,after,rfl,List.forall_mem_cons.mpr ⟨not_le.mp reached,behind⟩,reaches,?_⟩
      intro ys
      rw [List.cons_append,List.dropWhile_cons_of_pos (by simpa using reached)]
      exact drops ys

theorem dropWhile_origin (right : 0 < a) (ys : List α) :
    (xs ++ ys).dropWhile (fun x => decide (lower x ≠ 0)) = ys.dropWhile (fun x => decide (lower x ≠ 0)) := by
  induction xs generalizing a with
  | nil => rfl
  | cons x xs ih =>
    obtain ⟨start,positive,rest⟩ := tiles
    rw [List.cons_append,List.dropWhile_cons_of_pos (by simp; omega)]
    exact ih rest (right.trans positive)

end Tiles
end GraphEngine.Lib
