import Mathlib.Data.List.GetD
import Mathlib.LinearAlgebra.Matrix.DotProduct
import Mathlib.LinearAlgebra.Matrix.NonsingularInverse

/-! Least squares over an ordered field, for designs given as lists of rows. A solver is only assumed to
minimise the residual where the columns are independent; on a consistent system it then returns the solution. -/
namespace GraphEngine.Lib

open Matrix List

variable {K : Type} [Field K] {n : Nat}

def designMatrix (design : List (Fin n → K)) : Matrix (Fin design.length) (Fin n) K := fun i => design.get i

def FullColumnRank (design : List (Fin n → K)) : Prop := LinearIndependent K (designMatrix design).col

def residual (design : List (Fin n → K)) (target : List K) (x : Fin n → K) : K :=
  ∑ i : Fin design.length, (design.get i ⬝ᵥ x - target.getD i 0) ^ 2

variable (design : List (Fin n → K))

theorem fullColumnRank_iff : FullColumnRank design ↔ ∀ x : Fin n → K, (∀ row ∈ design, row ⬝ᵥ x = 0) → x = 0 := by
  unfold FullColumnRank
  rw [← mulVec_injective_iff,← coe_mulVecLin,← LinearMap.ker_eq_bot,LinearMap.ker_eq_bot']
  refine forall_congr' fun x => imp_congr_left ?_
  rw [mulVecLin_apply,funext_iff]
  constructor
  · intro zero row inside
    obtain ⟨i,rfl⟩ := get_of_mem inside
    exact zero i
  · intro zero i
    exact zero _ (get_mem ..)

variable {design : List (Fin n → K)}

theorem FullColumnRank.le_length (full : FullColumnRank design) : n ≤ design.length := by
  have bound := full.fintype_card_le_finrank
  rwa [Module.finrank_fintype_fun_eq_card,Fintype.card_fin,Fintype.card_fin] at bound

theorem FullColumnRank.scaled (full : FullColumnRank design) {scale : Fin n → K}
    (nonzero : ∀ j, scale j ≠ 0) : FullColumnRank (design.map fun row => row / scale) := by
  rw [fullColumnRank_iff] at full ⊢
  intro x zero
  have unscaled : x / scale = 0 := by
    apply full
    intro row inside
    rw [← zero _ (mem_map_of_mem inside)]
    refine Finset.sum_congr rfl fun j _ => ?_
    rw [Pi.div_apply,Pi.div_apply,mul_div_assoc',div_mul_eq_mul_div]
  funext j
  have at_ := congrFun unscaled j
  rw [Pi.div_apply,Pi.zero_apply,div_eq_zero_iff] at at_
  exact at_.resolve_right (nonzero j)

def UnitWeights (design : List (Fin n → K)) (weights : Fin n → List K) : Prop :=
  ∀ j k, (List.zipWith (fun weight row => weight * row k) (weights j) design).sum = if j = k then 1 else 0

instance [DecidableEq K] (design : List (Fin n → K)) (weights : Fin n → List K) :
    Decidable (UnitWeights design weights) := inferInstanceAs (Decidable (∀ _ _, _))

theorem UnitWeights.fullColumnRank {weights : Fin n → List K}
    (unit : UnitWeights design weights) : FullColumnRank design := by
  rw [fullColumnRank_iff]
  intro x zero
  have combined : ∀ (weight : List K) (rows : List (Fin n → K)), (∀ row ∈ rows, row ⬝ᵥ x = 0) →
      ∑ k, (zipWith (fun weight row => weight * row k) weight rows).sum * x k = 0 := by
    intro weight
    induction weight with
    | nil => intro rows _; simp
    | cons first weight ih =>
      intro rows zero
      cases rows with
      | nil => simp
      | cons row rows =>
        have here : ∑ k, first * row k * x k = 0 := by
          simp only [mul_assoc,← Finset.mul_sum]
          rw [← dotProduct,zero row mem_cons_self,mul_zero]
        simp only [zipWith_cons_cons,sum_cons,add_mul,Finset.sum_add_distrib]
        rw [here,ih rows fun other inside => zero other (mem_cons_of_mem _ inside),add_zero]
  funext j
  have row := combined (weights j) design zero
  simp only [unit j,ite_mul,one_mul,zero_mul,Finset.sum_ite_eq,Finset.mem_univ,if_true] at row
  exact row

theorem residual_map (truth : Fin n → K) : residual design (design.map (· ⬝ᵥ truth)) truth = 0 := by
  refine Finset.sum_eq_zero fun i _ => ?_
  rw [getD_eq_getElem _ _ (by rw [length_map]; exact i.isLt),getElem_map]
  simp

theorem residual_eq (target : List K) (x : Fin n → K) :
    residual design target x = (designMatrix design *ᵥ x - fun i : Fin design.length => target.getD i 0) ⬝ᵥ
      (designMatrix design *ᵥ x - fun i : Fin design.length => target.getD i 0) := by
  refine Finset.sum_congr rfl fun i _ => ?_
  rw [sq]
  rfl

variable [LinearOrder K] [IsStrictOrderedRing K]

structure Solver (K : Type) [Field K] [LinearOrder K] [IsStrictOrderedRing K] where
  lstsq : {n : Nat} → List (Fin n → K) → List K → (Fin n → K) × Nat
  rank_eq : ∀ {n} (design : List (Fin n → K)) (target : List K), FullColumnRank design →
    (lstsq design target).2 = n
  minimises : ∀ {n} (design : List (Fin n → K)) (target : List K), FullColumnRank design →
    ∀ y, residual design target (lstsq design target).1 ≤ residual design target y

theorem Solver.lstsq_map (solver : Solver K) (full : FullColumnRank design)
    (truth : Fin n → K) : (solver.lstsq design (design.map (· ⬝ᵥ truth))).1 = truth := by
  have least := solver.minimises design (design.map (· ⬝ᵥ truth)) full truth
  rw [residual_map] at least
  generalize (solver.lstsq design (design.map (· ⬝ᵥ truth))).1 = found at least
  have squares := (Finset.sum_eq_zero_iff_of_nonneg (fun i _ => sq_nonneg _)).mp
    (le_antisymm least (Finset.sum_nonneg fun i _ => sq_nonneg _))
  rw [← sub_eq_zero]
  apply (fullColumnRank_iff design).mp full
  intro row inside
  obtain ⟨i,rfl⟩ := get_of_mem inside
  have zero := pow_eq_zero_iff two_ne_zero |>.mp (squares i (Finset.mem_univ i))
  rw [getD_eq_getElem _ _ (by rw [length_map]; exact i.isLt),getElem_map] at zero
  rw [dotProduct_sub]
  exact zero

section Normal
variable {m : Nat} (A : Matrix (Fin m) (Fin n) K)

theorem gram_isUnit (independent : LinearIndependent K A.col) : IsUnit (Aᵀ * A) := by
  rw [← mulVec_injective_iff_isUnit,← coe_mulVecLin,← LinearMap.ker_eq_bot,LinearMap.ker_eq_bot']
  intro x zero
  have image : A *ᵥ x = 0 := by
    rw [← dotProduct_self_eq_zero]
    have form : x ⬝ᵥ (Aᵀ * A) *ᵥ x = 0 := by
      rw [mulVecLin_apply] at zero
      rw [zero,dotProduct_zero]
    rwa [← mulVec_mulVec,dotProduct_mulVec,vecMul_transpose] at form
  rw [← mulVec_injective_iff] at independent
  exact independent (image.trans (mulVec_zero A).symm)

theorem normal_minimises {b : Fin m → K} {x : Fin n → K} (normal : Aᵀ *ᵥ (A *ᵥ x - b) = 0) (y : Fin n → K) :
    (A *ᵥ x - b) ⬝ᵥ (A *ᵥ x - b) ≤ (A *ᵥ y - b) ⬝ᵥ (A *ᵥ y - b) := by
  have split : A *ᵥ y - b = (A *ᵥ x - b) + A *ᵥ (y - x) := by
    rw [mulVec_sub]
    abel
  have orthogonal : (A *ᵥ x - b) ⬝ᵥ A *ᵥ (y - x) = 0 := by
    rw [dotProduct_mulVec,← mulVec_transpose,normal,zero_dotProduct]
  have square : 0 ≤ A *ᵥ (y - x) ⬝ᵥ A *ᵥ (y - x) := Finset.sum_nonneg fun i _ => mul_self_nonneg _
  rw [split,add_dotProduct,dotProduct_add,dotProduct_add,orthogonal,
    dotProduct_comm (A *ᵥ (y - x)) (A *ᵥ x - b),orthogonal]
  linarith

end Normal

noncomputable def normalSolver : Solver K where
  lstsq {n} design target :=
    (((designMatrix design)ᵀ * designMatrix design)⁻¹ *ᵥ ((designMatrix design)ᵀ *ᵥ fun i => target.getD i 0),n)
  rank_eq _ _ _ := rfl
  minimises {n} design target full y := by
    rw [residual_eq,residual_eq]
    apply normal_minimises
    have unit := gram_isUnit (designMatrix design) full
    rw [Matrix.mulVec_sub,Matrix.mulVec_mulVec,Matrix.mulVec_mulVec,
      Matrix.mul_nonsing_inv _ ((Matrix.isUnit_iff_isUnit_det _).mp unit),Matrix.one_mulVec,sub_self]

end GraphEngine.Lib
