import Mathlib.Tactic.LinearCombination
import GraphEngine.Lib.AxisPermutation

/-! The layouts of the third round: for each shape a few pairs of strides, one for the global memory and one for the
buffer on the chip. `build_rows` uses them for the loops `(m,n,k)`, `(l3,l2,l1,l0)` and `(l4,l3,l2,l1,l0)`. -/
namespace GraphEngine.Nddma.Round3

open Lib.RowMajor Lib.AxisPermutation List

structure Layout where
  gm : List Nat
  ub : List Nat
  deriving DecidableEq, Repr

def spanElems (dims strides : List Nat) : Int :=
  1 + (List.zipWith (fun (dim stride : Nat) => ((dim : Int) - 1) * stride) dims strides).sum

def continuousStride (loopSizes : List Nat) : List Nat :=
  (List.range loopSizes.length).reverse.map fun axis => (loopSizes.take axis).prod

inductive Layout3d where
  | continuous
  | transposeDim2
  | transposeDim1Dim3
  | transpose3d
  deriving DecidableEq, Repr

def layouts3d (m n k : Nat) : Layout3d → Layout
  | .continuous => ⟨[n * k,n,1],[n * k,n,1]⟩
  | .transposeDim2 => ⟨[k,m * k,1],[n * k,k,1]⟩
  | .transposeDim1Dim3 => ⟨[1,m,n * m],[n * k,k,1]⟩
  | .transpose3d => ⟨[1,m,k * m],[n * k,k,1]⟩

inductive Layout4d where
  | continuous
  | transposeDim1Dim4
  | transposeDim3Dim4
  deriving DecidableEq, Repr

def layouts4d (l0 l1 l2 l3 : Nat) : Layout4d → Layout :=
  let output := [l2 * l1 * l0,l1 * l0,l0,1]
  fun
  | .continuous => ⟨output,output⟩
  | .transposeDim1Dim4 => ⟨[1,l1 * l3,l3,l1 * l2 * l3],output⟩
  | .transposeDim3Dim4 => ⟨[l1 * l0,l1 * l0 * l3,l0,1],output⟩

inductive Layout5d where
  | continuous
  | transposeDim1Dim5
  | transposeDim1Dim2
  deriving DecidableEq, Repr

def layouts5d (l0 l1 l2 l3 l4 : Nat) : Layout5d → Layout :=
  let output := continuousStride [l0,l1,l2,l3,l4]
  fun
  | .continuous => ⟨output,output⟩
  | .transposeDim1Dim5 => ⟨[1,l4 * l2 * l1,l4 * l1,l4,l4 * l1 * l2 * l3],output⟩
  | .transposeDim1Dim2 => ⟨[l3 * l2 * l1 * l0,l2 * l1 * l0,l1 * l0,1,l1],output⟩

def address (strides index : List Nat) : Nat := (List.zipWith (· * ·) index strides).sum

structure Exact (dims strides : List Nat) : Prop where
  injective : ∀ index ∈ indices dims, ∀ other ∈ indices dims, address strides index = address strides other → index = other
  onto : ∀ x, x < dims.prod ↔ ∃ index ∈ indices dims, address strides index = x
  span : spanElems dims strides = (dims.prod : Nat)

def Layout.Bijective (dims : List Nat) (layout : Layout) : Prop := Exact dims layout.gm ∧ Exact dims layout.ub

variable (axes : List Nat)

theorem exact_of_order {dims strides : List Nat} (valid : axes.Perm (range dims.length))
    (ordered : permute strides axes = rowStrides (permute dims axes)) (same : strides.length = dims.length)
    (span : spanElems dims strides = (dims.prod : Nat)) : Exact dims strides where
  injective _ inside _ member := strided_injective valid ordered same inside member
  onto _ := strided_onto valid ordered same
  span := span

theorem exact_three {a b c s u v : Nat} (valid : axes.Perm (range 3))
    (ordered : permute [s,u,v] axes = rowStrides (permute [a,b,c] axes))
    (span : 1 + (((a : Int) - 1) * s + (((b : Int) - 1) * u + ((c : Int) - 1) * v)) = a * (b * c)) : Exact [a,b,c] [s,u,v] :=
  exact_of_order axes valid ordered rfl (by simpa [spanElems] using span)

theorem exact_four {a b c d s u v w : Nat} (valid : axes.Perm (range 4))
    (ordered : permute [s,u,v,w] axes = rowStrides (permute [a,b,c,d] axes))
    (span : 1 + (((a : Int) - 1) * s + (((b : Int) - 1) * u + (((c : Int) - 1) * v + ((d : Int) - 1) * w))) =
      a * (b * (c * d))) : Exact [a,b,c,d] [s,u,v,w] :=
  exact_of_order axes valid ordered rfl (by simpa [spanElems] using span)

theorem exact_five {a b c d e s u v w x : Nat} (valid : axes.Perm (range 5))
    (ordered : permute [s,u,v,w,x] axes = rowStrides (permute [a,b,c,d,e] axes))
    (span : 1 + (((a : Int) - 1) * s + (((b : Int) - 1) * u + (((c : Int) - 1) * v + (((d : Int) - 1) * w +
      ((e : Int) - 1) * x)))) = a * (b * (c * (d * e)))) : Exact [a,b,c,d,e] [s,u,v,w,x] :=
  exact_of_order axes valid ordered rfl (by simpa [spanElems] using span)

theorem rowMajor_three (m n k : Nat) : Exact [m,n,k] [n * k,k,1] :=
  exact_three [0,1,2] (by decide) (by simp [permute,rowStrides]) (by push_cast; ring)

theorem continuous_three (m n : Nat) : Exact [m,n,n] [n * n,n,1] := rowMajor_three m n n

theorem layouts3d_square (m n : Nat) (layout : Layout3d) : (layouts3d m n n layout).Bijective [m,n,n] := by
  cases layout with
  | continuous => exact ⟨continuous_three m n,continuous_three m n⟩
  | transposeDim2 =>
    refine ⟨exact_three [1,0,2] (by decide) ?_ ?_,rowMajor_three m n n⟩
    · simp [permute,rowStrides]
    · push_cast; ring
  | transposeDim1Dim3 =>
    refine ⟨exact_three [2,1,0] (by decide) ?_ ?_,rowMajor_three m n n⟩
    · simp [permute,rowStrides]
    · push_cast; ring
  | transpose3d =>
    refine ⟨exact_three [2,1,0] (by decide) ?_ ?_,rowMajor_three m n n⟩
    · simp [permute,rowStrides]
    · push_cast; ring

theorem square_of_spans {m n k : Nat} (some : 0 < m) (continuous : spanElems [m,n,k] [n * k,n,1] = ([m,n,k].prod : Nat))
    (transposed : spanElems [m,n,k] [1,m,k * m] = ([m,n,k].prod : Nat)) : n = k := by
  simp only [spanElems,zipWith_cons_cons,zipWith_nil_left,sum_cons,sum_nil,prod_cons,prod_nil]
    at continuous transposed
  push_cast at continuous transposed
  have first : ((n : Int) - 1) * (n - k) = 0 := by linear_combination continuous
  have second : (m : Int) * ((k - 1) * (k - n)) = 0 := by linear_combination transposed
  rcases mul_eq_zero.mp first with one | equal
  · rcases (mul_eq_zero.mp second).resolve_left (by omega) |> mul_eq_zero.mp with one' | equal
    · omega
    · omega
  · omega

theorem layouts4d_bijective (l0 l1 l2 l3 : Nat) (layout : Layout4d) :
    (layouts4d l0 l1 l2 l3 layout).Bijective [l3,l2,l1,l0] := by
  have output : Exact [l3,l2,l1,l0] [l2 * l1 * l0,l1 * l0,l0,1] := by
    refine exact_four [0,1,2,3] (by decide) ?_ ?_
    · simp [permute,rowStrides,mul_assoc]
    · push_cast; ring
  cases layout with
  | continuous => exact ⟨output,output⟩
  | transposeDim1Dim4 =>
    refine ⟨exact_four [3,1,2,0] (by decide) ?_ ?_,output⟩
    · simp [permute,rowStrides,mul_comm,mul_left_comm]
    · push_cast; ring
  | transposeDim3Dim4 =>
    refine ⟨exact_four [1,0,2,3] (by decide) ?_ ?_,output⟩
    · simp [permute,rowStrides,mul_comm,mul_left_comm]
    · push_cast; ring

theorem layouts5d_bijective (l0 l1 l2 l3 l4 : Nat) (layout : Layout5d) :
    (layouts5d l0 l1 l2 l3 l4 layout).Bijective [l4,l3,l2,l1,l0] := by
  have strides : continuousStride [l0,l1,l2,l3,l4] = [l0 * (l1 * (l2 * l3)),l0 * (l1 * l2),l0 * l1,l0,1] := by
    simp [continuousStride,range_succ]
  have output : Exact [l4,l3,l2,l1,l0] (continuousStride [l0,l1,l2,l3,l4]) := by
    rw [strides]
    refine exact_five [0,1,2,3,4] (by decide) ?_ ?_
    · simp [permute,rowStrides,mul_comm,mul_left_comm]
    · push_cast; ring
  cases layout with
  | continuous => exact ⟨output,output⟩
  | transposeDim1Dim5 =>
    refine ⟨exact_five [4,1,2,3,0] (by decide) ?_ ?_,output⟩
    · simp [permute,rowStrides,mul_comm,mul_left_comm]
    · push_cast; ring
  | transposeDim1Dim2 =>
    refine ⟨exact_five [0,1,2,4,3] (by decide) ?_ ?_,output⟩
    · simp [permute,rowStrides,mul_comm,mul_left_comm]
    · push_cast; ring

def AllBijective (m n k l0 l1 l2 l3 l4 : Nat) : Prop :=
  (∀ layout, (layouts3d m n k layout).Bijective [m,n,k]) ∧
    (∀ layout, (layouts4d l0 l1 l2 l3 layout).Bijective [l3,l2,l1,l0]) ∧
    ∀ layout, (layouts5d l0 l1 l2 l3 l4 layout).Bijective [l4,l3,l2,l1,l0]

/-- All layouts number the elements without gap or overlap exactly if the last two sizes of the three-dimensional ones are
equal. -/
theorem layouts_bijective_iff (m n k l0 l1 l2 l3 l4 : Nat) (positive : ∀ size ∈ [m,n,k,l0,l1,l2,l3,l4], 0 < size) :
    AllBijective m n k l0 l1 l2 l3 l4 ↔ n = k := by
  have some : 0 < m := positive m (by simp)
  refine ⟨?_,?_⟩
  · intro ⟨three,_⟩
    exact square_of_spans some (three .continuous).1.span (three .transpose3d).1.span
  · intro square
    subst square
    exact ⟨layouts3d_square m n,layouts4d_bijective l0 l1 l2 l3,layouts5d_bijective l0 l1 l2 l3 l4⟩

theorem layouts_bijective_square : AllBijective 2 4 4 4 4 2 2 2 :=
  (layouts_bijective_iff 2 4 4 4 4 2 2 2 (by decide)).mpr rfl

/-- The continuous layout of `(2,4,8)` meets itself: `(0,0,4)` and `(0,1,0)` share an address. -/
theorem continuous_overlaps : ¬(layouts3d 2 4 8 .continuous).Bijective [2,4,8] := by
  intro ⟨exact,_⟩
  have equal := exact.injective [0,0,4] (by decide) [0,1,0] (by decide) rfl
  simp at equal

end GraphEngine.Nddma.Round3
