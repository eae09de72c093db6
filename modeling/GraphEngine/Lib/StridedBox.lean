import Mathlib.Tactic.Linarith
import Mathlib.Tactic.Ring

/-! The offsets that a nest of strided loops touches. Each loop has a size and a stride, either may be negative
or zero; a loop of no size leaves nothing. -/
namespace GraphEngine.Lib.StridedBox

open List

abbrev Axis := Int × Int

def offsets : List Axis → List Int
  | [] => [0]
  | (size,stride) :: axes =>
    (List.range size.toNat).flatMap fun (i : Nat) => (offsets axes).map fun rest => (i : Int) * stride + rest

def Positive (axes : List Axis) : Prop := ∀ axis ∈ axes, 0 < axis.1

instance (axes : List Axis) : Decidable (Positive axes) := inferInstanceAs (Decidable (∀ axis ∈ axes, _))

def low (axes : List Axis) : Int := (axes.map fun axis => min 0 ((axis.1 - 1) * axis.2)).sum

def high (axes : List Axis) : Int := (axes.map fun axis => max 0 ((axis.1 - 1) * axis.2)).sum

def span (axes : List Axis) : Int := if Positive axes then high axes - low axes + 1 else 0

variable {size stride x : Int} {axes : List Axis}

theorem mem_offsets_cons :
    x ∈ offsets ((size,stride) :: axes) ↔ ∃ i rest, 0 ≤ i ∧ i < size ∧ rest ∈ offsets axes ∧ x = i * stride + rest := by
  simp only [offsets,mem_flatMap,mem_range,mem_map]
  constructor
  · rintro ⟨i,small,rest,inside,rfl⟩
    exact ⟨i,rest,by omega,by omega,inside,rfl⟩
  · rintro ⟨i,rest,nonneg,small,inside,rfl⟩
    refine ⟨i.toNat,by omega,rest,inside,?_⟩
    rw [Int.toNat_of_nonneg nonneg]

private theorem step_bounds (stride : Int) {i : Int} (nonneg : 0 ≤ i) (small : i < size) :
    min 0 ((size - 1) * stride) ≤ i * stride ∧ i * stride ≤ max 0 ((size - 1) * stride) := by
  rcases le_total 0 stride with up | down
  · refine ⟨(min_le_left _ _).trans (mul_nonneg nonneg up),le_max_of_le_right ?_⟩
    exact mul_le_mul_of_nonneg_right (by omega) up
  · refine ⟨min_le_of_right_le ?_,(mul_nonpos_of_nonneg_of_nonpos nonneg down).trans (le_max_left _ _)⟩
    exact mul_le_mul_of_nonpos_right (by omega) down

theorem bounds (inside : x ∈ offsets axes) : Positive axes ∧ low axes ≤ x ∧ x ≤ high axes := by
  induction axes generalizing x with
  | nil =>
    rw [offsets,mem_singleton] at inside
    subst inside
    exact ⟨fun axis none => absurd none not_mem_nil,le_refl _,le_refl _⟩
  | cons axis axes ih =>
    obtain ⟨size,stride⟩ := axis
    obtain ⟨i,rest,nonneg,small,inner,rfl⟩ := mem_offsets_cons.mp inside
    obtain ⟨positive,above,below⟩ := ih inner
    obtain ⟨down,up⟩ := step_bounds stride nonneg small
    refine ⟨?_,?_,?_⟩
    · exact forall_mem_cons.mpr ⟨lt_of_le_of_lt nonneg small,positive⟩
    · exact add_le_add down above
    · exact add_le_add up below

theorem ends_mem (positive : Positive axes) : low axes ∈ offsets axes ∧ high axes ∈ offsets axes := by
  induction axes with
  | nil => exact ⟨mem_singleton.mpr rfl,mem_singleton.mpr rfl⟩
  | cons axis axes ih =>
    obtain ⟨size,stride⟩ := axis
    have here := positive _ mem_cons_self
    obtain ⟨lowest,highest⟩ := ih fun axis there => positive axis (mem_cons_of_mem _ there)
    dsimp only at here
    simp only [mem_offsets_cons]
    rcases le_total ((size - 1) * stride) 0 with down | up
    · exact ⟨⟨size - 1,_,by omega,by omega,lowest,by simp [low,min_eq_right down]⟩,
        ⟨0,_,by omega,here,highest,by simp [high,max_eq_left down]⟩⟩
    · exact ⟨⟨0,_,by omega,here,lowest,by simp [low,min_eq_left up]⟩,
        ⟨size - 1,_,by omega,by omega,highest,by simp [high,max_eq_right up]⟩⟩

theorem apart {y base base' : Int} (inside : x ∈ offsets axes) (inside' : y ∈ offsets axes)
    (distant : base + span axes ≤ base') : base + x ≠ base' + y := by
  obtain ⟨positive,-,below⟩ := bounds inside
  obtain ⟨-,above,-⟩ := bounds inside'
  rw [span,if_pos positive] at distant
  omega

/-- Two runs of one stride meet exactly if the stride divides the distance and the run it points along reaches that far. -/
theorem single_apart_iff {distance : Int} {size' : Int} (ahead : 0 < distance) (positive : 0 < size) (positive' : 0 < size') :
    (∀ x ∈ offsets [(size,stride)], ∀ y ∈ offsets [(size',stride)], x ≠ distance + y) ↔
      ¬(stride ∣ distance ∧ (0 < stride ∧ distance < stride * size ∨ stride < 0 ∧ distance < -stride * size')) := by
  have single : ∀ {size x : Int}, x ∈ offsets [(size,stride)] ↔ ∃ i, 0 ≤ i ∧ i < size ∧ x = i * stride := by
    intro size x
    rw [mem_offsets_cons]
    constructor
    · rintro ⟨i,rest,nonneg,small,inner,rfl⟩
      rw [offsets,mem_singleton] at inner
      exact ⟨i,nonneg,small,by rw [inner,add_zero]⟩
    · rintro ⟨i,nonneg,small,rfl⟩
      exact ⟨i,0,nonneg,small,mem_singleton.mpr rfl,(add_zero _).symm⟩
  constructor
  · rintro never ⟨⟨q,rfl⟩,(⟨up,reach⟩ | ⟨down,reach⟩)⟩
    · have nonneg : 0 ≤ q := by
        by_contra negative
        exact absurd (mul_nonpos_of_nonneg_of_nonpos up.le (by omega)) (not_le.mpr ahead)
      have small : q < size := lt_of_mul_lt_mul_left reach up.le
      exact never _ (single.mpr ⟨q,nonneg,small,rfl⟩) _ (single.mpr ⟨0,le_refl _,positive',rfl⟩) (by ring)
    · have nonpos : q ≤ 0 := by
        by_contra positive
        exact absurd (mul_nonpos_of_nonpos_of_nonneg down.le (by omega)) (not_le.mpr ahead)
      have small : -q < size' := by
        refine lt_of_mul_lt_mul_left (a := -stride) ?_ (by omega)
        linarith [neg_mul_neg stride q]
      exact never _ (single.mpr ⟨0,le_refl _,positive,rfl⟩) _ (single.mpr ⟨-q,by omega,small,rfl⟩) (by ring)
  · intro none x inside y inside' same
    obtain ⟨i,nonneg,small,rfl⟩ := single.mp inside
    obtain ⟨j,nonneg',small',rfl⟩ := single.mp inside'
    have gap : distance = stride * (i - j) := by linarith [same]
    refine none ⟨⟨i - j,gap⟩,?_⟩
    rcases lt_trichotomy stride 0 with down | zero | up
    · refine Or.inr ⟨down,?_⟩
      have reach : -stride * (j - i) < -stride * size' := mul_lt_mul_of_pos_left (by omega) (by omega)
      linarith
    · rw [zero,zero_mul] at gap
      omega
    · refine Or.inl ⟨up,?_⟩
      have reach : stride * (i - j) < stride * size := mul_lt_mul_of_pos_left (by omega) up
      linarith

end GraphEngine.Lib.StridedBox
