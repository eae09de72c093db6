import GraphEngine.Lib.Precedence

/-! One element of a list for each key: the first one, or the last one. -/

namespace GraphEngine.Lib
open List
variable {α κ : Type*} [DecidableEq κ] (key : α → κ) {xs : List α} {x y : α}

def keepFirst (xs : List α) : List α :=
  xs.foldl (fun kept x => if ∃ y ∈ kept, key y = key x then kept else kept ++ [x]) []

def keepLast (xs : List α) : List α := xs.foldl (fun kept x => kept.filter (fun y => key y ≠ key x) ++ [x]) []

theorem keepFirst_concat : keepFirst key (xs ++ [x]) =
    if ∃ y ∈ keepFirst key xs, key y = key x then keepFirst key xs else keepFirst key xs ++ [x] := by
  rw [keepFirst,foldl_append,foldl_cons,foldl_nil]
  rfl

theorem keepLast_concat : keepLast key (xs ++ [x]) = (keepLast key xs).filter (fun y => key y ≠ key x) ++ [x] := by
  rw [keepLast,foldl_append,foldl_cons,foldl_nil]
  rfl

variable {key}

theorem mem_keepFirst_concat :
    x ∈ keepFirst key (xs ++ [y]) ↔ x ∈ keepFirst key xs ∨ x = y ∧ ∀ z ∈ keepFirst key xs, key z ≠ key y := by
  rw [keepFirst_concat]
  split
  · next known =>
    obtain ⟨z,kept,same⟩ := known
    exact ⟨.inl,fun either => either.resolve_right fun new => new.2 z kept same⟩
  · next fresh =>
    push Not at fresh
    rw [mem_append,mem_singleton]
    exact or_congr_right ⟨fun new => ⟨new,fresh⟩,And.left⟩

theorem mem_of_mem_keepFirst (kept : x ∈ keepFirst key xs) : x ∈ xs := by
  induction xs using reverseRecOn with
  | nil => cases kept
  | append_singleton xs y ih =>
    rcases mem_keepFirst_concat.mp kept with old | ⟨new,-⟩
    · exact mem_append_left _ (ih old)
    · exact mem_append_right _ (mem_singleton.mpr new)

theorem keepFirst_unique (left : x ∈ keepFirst key xs) (right : y ∈ keepFirst key xs) (same : key x = key y) : x = y := by
  induction xs using reverseRecOn with
  | nil => cases left
  | append_singleton xs z ih =>
    rcases mem_keepFirst_concat.mp left with oldX | ⟨newX,fresh⟩
    · rcases mem_keepFirst_concat.mp right with oldY | ⟨newY,fresh⟩
      · exact ih oldX oldY
      · exact absurd (same.trans (congrArg key newY)) (fresh x oldX)
    · rcases mem_keepFirst_concat.mp right with oldY | ⟨newY,-⟩
      · exact absurd (same.symm.trans (congrArg key newX)) (fresh y oldY)
      · rw [newX,newY]

theorem keepFirst_covers (key : α → κ) (inside : x ∈ xs) : ∃ y ∈ keepFirst key xs, key y = key x ∧ (y = x ∨ Precedes xs y x) := by
  induction xs using reverseRecOn with
  | nil => cases inside
  | append_singleton xs z ih =>
    rcases mem_append.mp inside with old | new
    · obtain ⟨y,kept,same,before⟩ := ih old
      exact ⟨y,mem_keepFirst_concat.mpr (.inl kept),same,before.imp_right fun before => before.append_right _⟩
    · obtain rfl := mem_singleton.mp new
      by_cases known : ∃ y ∈ keepFirst key xs, key y = key x
      · obtain ⟨y,kept,same⟩ := known
        exact ⟨y,mem_keepFirst_concat.mpr (.inl kept),same,.inr (Precedes.across (mem_of_mem_keepFirst kept) new)⟩
      · push Not at known
        exact ⟨x,mem_keepFirst_concat.mpr (.inr ⟨rfl,known⟩),rfl,.inl rfl⟩

theorem mem_keepLast_concat : x ∈ keepLast key (xs ++ [y]) ↔ x ∈ keepLast key xs ∧ key x ≠ key y ∨ x = y := by
  rw [keepLast_concat,mem_append,mem_filter,mem_singleton,decide_eq_true_eq]

theorem mem_of_mem_keepLast (kept : x ∈ keepLast key xs) : x ∈ xs := by
  induction xs using reverseRecOn with
  | nil => cases kept
  | append_singleton xs y ih =>
    rcases mem_keepLast_concat.mp kept with ⟨old,_⟩ | new
    · exact mem_append_left _ (ih old)
    · exact mem_append_right _ (mem_singleton.mpr new)

theorem keepLast_unique (left : x ∈ keepLast key xs) (right : y ∈ keepLast key xs) (same : key x = key y) : x = y := by
  induction xs using reverseRecOn with
  | nil => cases left
  | append_singleton xs z ih =>
    rcases mem_keepLast_concat.mp left with ⟨oldX,otherX⟩ | newX
    · rcases mem_keepLast_concat.mp right with ⟨oldY,_⟩ | newY
      · exact ih oldX oldY
      · exact absurd (same.trans (congrArg key newY)) otherX
    · rcases mem_keepLast_concat.mp right with ⟨_,otherY⟩ | newY
      · exact absurd (same.symm.trans (congrArg key newX)) otherY
      · rw [newX,newY]

theorem keepLast_covers (key : α → κ) (inside : x ∈ xs) : ∃ y ∈ keepLast key xs, key y = key x ∧ (y = x ∨ Precedes xs x y) := by
  induction xs using reverseRecOn with
  | nil => cases inside
  | append_singleton xs z ih =>
    by_cases same : key x = key z
    · refine ⟨z,mem_keepLast_concat.mpr (.inr rfl),same.symm,?_⟩
      rcases mem_append.mp inside with old | new
      · exact .inr (Precedes.across old (mem_singleton.mpr rfl))
      · exact .inl (mem_singleton.mp new).symm
    · have old : x ∈ xs := by
        rcases mem_append.mp inside with old | new
        · exact old
        · exact absurd (congrArg key (mem_singleton.mp new)) same
      obtain ⟨y,kept,sameY,before⟩ := ih old
      refine ⟨y,?_,sameY,before.imp_right fun before => before.append_right _⟩
      exact mem_keepLast_concat.mpr (.inl ⟨kept,sameY ▸ same⟩)

end GraphEngine.Lib
