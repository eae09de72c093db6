import Mathlib.Data.Finset.Max

/-! Finite ordered maps with a lower-bound search, and hash sets as lists without
repetition whose iteration order is an arbitrary function of their contents. -/
namespace GraphEngine.Lib

open Finset

structure OrdMap (κ α : Type) [LinearOrder κ] where
  keys : Finset κ
  find : κ → Option α
  mem_keys : ∀ key, key ∈ keys ↔ (find key).isSome = true

namespace OrdMap
variable {κ α : Type} [LinearOrder κ]

def empty : OrdMap κ α := ⟨∅,fun _ => none,by simp⟩

def insert (m : OrdMap κ α) (key : κ) (value : α) : OrdMap κ α where
  keys := Insert.insert key m.keys
  find := Function.update m.find key (some value)
  mem_keys other := by
    by_cases same : other = key
    · subst other
      simp
    · simp [same,m.mem_keys]

def erase (m : OrdMap κ α) (key : κ) : OrdMap κ α where
  keys := m.keys.erase key
  find := Function.update m.find key none
  mem_keys other := by
    by_cases same : other = key
    · subst other
      simp
    · simp [same,m.mem_keys]

def lowerBound (m : OrdMap κ α) (key : κ) : Option κ :=
  if fits : (m.keys.filter (key ≤ ·)).Nonempty then some ((m.keys.filter (key ≤ ·)).min' fits) else none

@[simp] theorem find_empty (key : κ) : (empty : OrdMap κ α).find key = none := rfl

variable (m : OrdMap κ α)

theorem find_insert (key other : κ) (value : α) :
    (m.insert key value).find other = if other = key then some value else m.find other := by
  simp [insert,Function.update_apply]

theorem find_erase (key other : κ) : (m.erase key).find other = if other = key then none else m.find other := by
  simp [erase,Function.update_apply]

theorem lowerBound_eq_none_iff (key : κ) : m.lowerBound key = none ↔ ∀ other, key ≤ other → m.find other = none := by
  unfold lowerBound
  split
  next fits =>
    obtain ⟨other,member⟩ := fits
    have present := mem_filter.mp member
    simp only [reduceCtorEq,false_iff,not_forall]
    refine ⟨other,present.2,?_⟩
    intro absent
    simpa [absent] using (m.mem_keys other).mp present.1
  next none =>
    simp only [true_iff]
    intro other above
    by_contra present
    apply none
    exact ⟨other,mem_filter.mpr ⟨(m.mem_keys other).mpr (Option.isSome_iff_ne_none.mpr present),above⟩⟩

theorem lowerBound_eq_some {m : OrdMap κ α} {key least : κ} (bound : m.lowerBound key = some least) :
    (∃ value, m.find least = some value) ∧ key ≤ least ∧
      ∀ other, key ≤ other → (m.find other).isSome = true → least ≤ other := by
  unfold lowerBound at bound
  split at bound
  next fits =>
    obtain rfl := Option.some.inj bound
    have member := mem_filter.mp (min'_mem _ fits)
    refine ⟨Option.isSome_iff_exists.mp ((m.mem_keys _).mp member.1),member.2,?_⟩
    intro other above present
    exact min'_le _ _ (mem_filter.mpr ⟨(m.mem_keys other).mpr present,above⟩)
  next => cases bound

end OrdMap

structure IterationOrder (β : Type) where
  iterate : List β → List β
  perm : ∀ set, (iterate set).Perm set

namespace IterationOrder
variable {β : Type}

def insertion : IterationOrder β := ⟨id,fun _ => List.Perm.refl _⟩

variable (order : IterationOrder β)
include order

theorem mem_iterate (set : List β) (x : β) : x ∈ order.iterate set ↔ x ∈ set :=
  (order.perm set).mem_iff

theorem head_mem {set : List β} {x : β} (first : (order.iterate set).head? = some x) : x ∈ set :=
  (order.mem_iterate set x).mp (List.mem_of_mem_head? first)

theorem head_none_iff (set : List β) : (order.iterate set).head? = none ↔ set = [] := by
  rw [List.head?_eq_none_iff]
  constructor
  · intro empty
    have sizes := (order.perm set).length_eq
    rw [empty] at sizes
    exact List.length_eq_zero_iff.mp sizes.symm
  · rintro rfl
    exact List.perm_nil.mp (order.perm [])

end IterationOrder
end GraphEngine.Lib
