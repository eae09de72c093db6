import Mathlib.Data.List.Nodup

/-! Ordered sets as lists: an element is put in front of the first one that does not come before it, and an element
that is equivalent to one in the set is left out. -/

namespace GraphEngine.Lib
open List
variable {α : Type*} {before : α → α → Bool} {x y : α} {xs ys : List α}

def setInsert (before : α → α → Bool) (x : α) : List α → List α
  | [] => [x]
  | y :: ys => if before x y then x :: y :: ys else if before y x then y :: setInsert before x ys else y :: ys

def setOf (before : α → α → Bool) (xs : List α) : List α := xs.foldl (fun set x => setInsert before x set) []

theorem setInsert_perm (comparable : ∀ y ∈ ys, before x y = true ∨ before y x = true) :
    (setInsert before x ys).Perm (x :: ys) := by
  induction ys with
  | nil => exact .refl _
  | cons y ys ih =>
    unfold setInsert
    split
    · exact .refl _
    · rename_i notBefore
      rcases comparable y (.head _) with first | second
      · exact absurd first notBefore
      · rw [if_pos second]
        exact ((ih fun z inside => comparable z (.tail _ inside)).cons y).trans (List.Perm.swap x y ys)

theorem mem_of_mem_setInsert (inside : y ∈ setInsert before x ys) : y = x ∨ y ∈ ys := by
  induction ys with
  | nil => exact .inl (mem_singleton.mp inside)
  | cons z ys ih =>
    unfold setInsert at inside
    split at inside
    · simpa using inside
    · split at inside
      · rcases mem_cons.mp inside with rfl | later
        · exact .inr (.head _)
        · rcases ih later with same | old
          · exact .inl same
          · exact .inr (.tail _ old)
      · exact .inr inside

theorem mem_setInsert_of_mem (inside : y ∈ ys) : y ∈ setInsert before x ys := by
  induction ys with
  | nil => cases inside
  | cons z ys ih =>
    unfold setInsert
    split
    · exact .tail _ inside
    · split
      · rcases mem_cons.mp inside with rfl | later
        · exact .head _
        · exact .tail _ (ih later)
      · exact inside

theorem mem_setInsert_self (comparable : ∀ y ∈ ys, y ≠ x → before x y = true ∨ before y x = true) :
    x ∈ setInsert before x ys := by
  induction ys with
  | nil => exact .head _
  | cons y ys ih =>
    unfold setInsert
    split
    · exact .head _
    · rename_i notBefore
      by_cases same : y = x
      · subst same
        split
        all_goals exact .head _
      · rcases comparable y (.head _) same with first | second
        · exact absurd first notBefore
        · rw [if_pos second]
          exact .tail _ (ih fun z inside => comparable z (.tail _ inside))

private theorem mem_fold_insert : ∀ {set : List α}, y ∈ xs.foldl (fun set x => setInsert before x set) set →
    y ∈ set ∨ y ∈ xs := by
  induction xs with
  | nil => exact .inl
  | cons x xs ih =>
    intro set inside
    rcases ih inside with old | new
    · rcases mem_of_mem_setInsert old with rfl | old
      · exact .inr (.head _)
      · exact .inl old
    · exact .inr (.tail _ new)

theorem mem_of_mem_setOf (inside : y ∈ setOf before xs) : y ∈ xs := by
  rcases mem_fold_insert inside with impossible | inside
  · cases impossible
  · exact inside

private theorem fold_insert_keeps {set : List α} (inside : y ∈ set) :
    y ∈ xs.foldl (fun set x => setInsert before x set) set := by
  induction xs generalizing set with
  | nil => exact inside
  | cons x xs ih => exact ih (mem_setInsert_of_mem inside)

private theorem fold_insert_all {set : List α}
    (comparable : ∀ y ∈ set ++ xs, ∀ z ∈ set ++ xs, y ≠ z → before y z = true ∨ before z y = true) (inside : y ∈ xs) :
    y ∈ xs.foldl (fun set x => setInsert before x set) set := by
  induction xs generalizing set with
  | nil => cases inside
  | cons x xs ih =>
    rcases mem_cons.mp inside with rfl | later
    · rw [foldl_cons]
      refine fold_insert_keeps (mem_setInsert_self ?_)
      intro z known different
      exact comparable y (by simp) z (mem_append_left _ known) (Ne.symm different)
    · refine ih ?_ later
      have within : ∀ z ∈ setInsert before x set ++ xs, z ∈ set ++ x :: xs := by
        intro z known
        rcases mem_append.mp known with known | known
        · rcases mem_of_mem_setInsert known with rfl | known
          · simp
          · exact mem_append_left _ known
        · exact mem_append_right _ (.tail _ known)
      intro a knownA b knownB
      exact comparable a (within a knownA) b (within b knownB)

private theorem fold_insert_perm {set : List α}
    (comparable : ∀ y ∈ set ++ xs, ∀ z ∈ set ++ xs, y ≠ z → before y z = true ∨ before z y = true)
    (nodup : (set ++ xs).Nodup) : (xs.foldl (fun set x => setInsert before x set) set).Perm (set ++ xs) := by
  induction xs generalizing set with
  | nil => simp
  | cons x xs ih =>
    have inserted : (setInsert before x set).Perm (x :: set) := by
      apply setInsert_perm
      intro y inside
      apply comparable x (by simp) y (mem_append_left _ inside)
      intro same
      exact disjoint_of_nodup_append nodup inside (same ▸ mem_cons_self)
    have shuffled := (inserted.append_right xs).trans perm_middle.symm
    refine (ih ?_ (shuffled.nodup_iff.mpr nodup)).trans shuffled
    intro y insideY z insideZ
    exact comparable y (shuffled.mem_iff.mp insideY) z (shuffled.mem_iff.mp insideZ)

variable (comparable : ∀ y ∈ xs, ∀ z ∈ xs, y ≠ z → before y z = true ∨ before z y = true)
include comparable

theorem mem_setOf : y ∈ setOf before xs ↔ y ∈ xs :=
  ⟨mem_of_mem_setOf,fun inside => fold_insert_all (by simpa using comparable) inside⟩

theorem setOf_perm (nodup : xs.Nodup) : (setOf before xs).Perm xs := fold_insert_perm (by simpa using comparable) nodup

end GraphEngine.Lib
