import Mathlib.Algebra.BigOperators.Ring.List
import GraphEngine.Formats.Transposition
import GraphEngine.Lib.AxisPermutation

/-! `Transpose` gives the tensor with its axes in another order. For a tensor without elements it leaves the result's pointer
null, and it takes no null pointer as a source. -/

namespace GraphEngine.Formats

open Lib.RowMajor Lib.ElementBuffer Lib.AxisPermutation List

structure TransResult where
  data : Option (List UInt8)
  length : Nat
  deriving DecidableEq

/-- `Transpose` with a pointer as a source and a fresh result. -/
def transposeInto (memory : Nat → UInt8) (src : Option (List UInt8)) (srcShape : List Int) (size : Int) (permArg : List Nat) :
    Except TransError TransResult :=
  match src with
  | none => .error .paramInvalid
  | some data => do
    let dst ← transpose memory data srcShape size permArg
    if getItemNumByShape ((transShapeByPerm (srcShape.map Int.toNat) permArg).map Int.ofNat) = 0 then .ok ⟨none,dst.length⟩
    else .ok ⟨some dst,dst.length⟩

section Strides

theorem headD_genHeads (count : Nat) (shape : List Nat) : (genHeads (count :: shape)).headD 1 = shape.prod := by
  induction shape generalizing count with
  | nil => rfl
  | cons next shape ih =>
    rw [genHeads,headD_cons,ih,prod_cons]

theorem genHeads_cons (count : Nat) (shape : List Nat) : genHeads (count :: shape) = shape.prod :: genHeads shape := by
  cases shape with
  | nil => rfl
  | cons next shape => rw [genHeads,headD_genHeads,prod_cons]

theorem length_genHeads (shape : List Nat) : (genHeads shape).length = shape.length := by
  induction shape with
  | nil => rfl
  | cons count shape ih => rw [genHeads_cons,length_cons,length_cons,ih]

theorem genOffset_genHeads {shape index : List Nat} (same : index.length = shape.length) :
    genOffset (genHeads shape) index = offset shape index := by
  induction shape generalizing index with
  | nil =>
    rw [length_eq_zero_iff.mp same]
    rfl
  | cons count shape ih =>
    cases index with
    | nil => simp at same
    | cons i index =>
      have rest := ih (Nat.succ.inj same)
      rw [genOffset] at rest
      rw [genHeads_cons,genOffset,zipWith_cons_cons,sum_cons,rest,offset,mul_comm]

theorem genOffset_permuted {shape perm index : List Nat} (valid : perm.Perm (range shape.length))
    (inside : index ∈ indices shape) :
    genOffset (transShapeByPerm (genHeads shape) perm) (permute index perm) = offset shape index := by
  rw [← genOffset_genHeads (length_of_mem inside)]
  exact sum_permute valid (length_genHeads shape) (length_of_mem inside)

end Strides

section Walk

def visited (shape : List Nat) : List (List Nat) := List.iterate (addOne shape) (shape.map fun _ => 0) shape.prod

theorem iterate_addOne (shape : List Nat) (left k : Nat) (index : List Nat) (remaining : left + k = shape.prod)
    (current : 0 < left → index ∈ indices shape ∧ offset shape index = k) :
    iterate (addOne shape) index left = (indices shape).drop k := by
  induction left generalizing k index with
  | zero => exact (drop_indices_all remaining).symm
  | succ left ih =>
    obtain ⟨inside,rfl⟩ := current (Nat.succ_pos left)
    rw [drop_indices inside,iterate,ih _ _ (by omega) fun more => addOne_spec inside (by omega)]

theorem visited_eq (shape : List Nat) : visited shape = indices shape := by
  rw [visited,iterate_addOne shape shape.prod 0 _ (add_zero _) zero_mem,drop_zero]

end Walk

variable {shape perm : List Nat} {size : Nat} {data result : List UInt8}

/-- The result holds the elements of the data with the axes in the order of the permutation. -/
structure Permutes (shape perm : List Nat) (size : Nat) (data result : List UInt8) : Prop where
  length : result.length = shape.prod * size
  elements : ∀ index ∈ indices shape,
    element size result (offset (permute shape perm) (permute index perm)) = element size data (offset shape index)

namespace Permutes

theorem unique {other : List UInt8} (valid : perm.Perm (range shape.length)) (first : Permutes shape perm size data result)
    (second : Permutes shape perm size data other) : result = other := by
  apply ext_elements first.length second.length
  intro i bound
  rw [← prod_permute valid] at bound
  obtain ⟨target,inside,rfl⟩ := exists_index bound
  obtain ⟨index,member,rfl⟩ := exists_source valid inside
  rw [first.elements index member,second.elements index member]

theorem refl (whole : data.length = shape.prod * size) : Permutes shape (range shape.length) size data data := by
  refine ⟨whole,?_⟩
  intro index inside
  have same : permute index (range shape.length) = index := by
    rw [← length_of_mem inside,permute_range]
  rw [same,permute_range]

theorem trans {order : List Nat} {final : List UInt8} (valid : perm.Perm (range shape.length))
    (second : order.Perm (range shape.length)) (one : Permutes shape perm size data result)
    (two : Permutes (permute shape perm) order size result final) : Permutes shape (permute perm order) size data final := by
  have below : ∀ k ∈ order, k < perm.length := by
    rw [length_of_valid valid]
    exact fun k => lt_of_valid second
  refine ⟨by rw [two.length,prod_permute valid],?_⟩
  intro index inside
  rw [← permute_permute below,← permute_permute below,two.elements _ (permute_mem valid inside),one.elements index inside]

end Permutes

theorem isShapeArgValid_of_perm (some : shape ≠ []) (valid : perm.Perm (range shape.length)) :
    isShapeArgValid (shape.map Int.ofNat) perm := by
  have below : ∀ axis ∈ perm, axis < perm.length := by
    rw [length_of_valid valid]
    exact fun axis => lt_of_valid valid
  simp [isShapeArgValid,some,length_of_valid valid,nodup_of_valid valid]
  rw [length_of_valid valid] at below
  exact below

theorem transpose_permutes (positive : 0 < size) (small : size ≤ securecMemMaxLen) (memory : Nat → UInt8) (some : shape ≠ [])
    (valid : perm.Perm (range shape.length)) (whole : data.length = shape.prod * size) :
    ∃ result, transpose memory data (shape.map Int.ofNat) size perm = .ok result ∧ Permutes shape perm size data result := by
  have inside : ∀ target ∈ indices (transShapeByPerm shape perm),
      genOffset (transShapeByPerm (genHeads shape) perm) target < shape.prod := by
    intro target member
    obtain ⟨index,plain,rfl⟩ := exists_source valid member
    rw [genOffset_permuted valid plain]
    exact offset_lt plain
  obtain ⟨result,exec,length,elements⟩ :=
    transpose_spec positive small memory shape perm (isShapeArgValid_of_perm some valid) whole inside
  refine ⟨result,exec,length.trans (congrArg (· * size) (prod_permute valid)),?_⟩
  intro index plain
  rw [← genOffset_permuted valid plain]
  exact elements _ (permute_mem valid plain)

section Pointers

variable (memory : Nat → UInt8) (positive : 0 < size) (small : size ≤ securecMemMaxLen) (some : shape ≠ [])
  (valid : perm.Perm (List.range shape.length)) (whole : data.length = shape.prod * size)

include positive small some valid whole

theorem transposeInto_eq : ∃ result, Permutes shape perm size data result ∧
    transposeInto memory (.some data) (shape.map Int.ofNat) size perm =
      if shape.prod = 0 then .ok ⟨none,result.length⟩ else .ok ⟨.some result,result.length⟩ := by
  obtain ⟨result,exec,permuted⟩ := transpose_permutes positive small memory some valid whole
  have plain : (shape.map Int.ofNat).map Int.toNat = shape := by
    rw [map_map]
    exact map_id shape
  have items : getItemNumByShape ((transShapeByPerm shape perm).map Int.ofNat) = (shape.prod : Nat) :=
    (items_cast _).trans (congrArg Int.ofNat (prod_permute valid))
  refine ⟨result,permuted,?_⟩
  rw [transposeInto,exec,plain,items]
  by_cases empty : shape.prod = 0
  · rw [if_pos empty]
    exact if_pos (by omega)
  · rw [if_neg empty]
    exact if_neg (by omega)

theorem transposeInto_full (full : shape.prod ≠ 0) : ∃ result, Permutes shape perm size data result ∧
    transposeInto memory (.some data) (shape.map Int.ofNat) size perm = .ok ⟨.some result,result.length⟩ := by
  obtain ⟨result,permuted,exec⟩ := transposeInto_eq memory positive small some valid whole
  exact ⟨result,permuted,by rw [exec,if_neg full]⟩

end Pointers

structure WalksInOrder (shape : List Nat) (size : Nat) : Prop where
  order : (visited shape).map (offset shape) = List.range shape.prod
  all : ∀ target, target ∈ visited shape ↔ target ∈ indices shape
  loop : ∀ (src : List UInt8) (srcHeads : List Nat) (dstSize : Nat) (dst : List UInt8),
    transposeLoop src shape srcHeads size dstSize shape.prod 0 (shape.map fun _ => 0) dst =
      (visited shape).foldlM (transposeStep src shape srcHeads size dstSize) dst

theorem walksInOrder (shape : List Nat) (size : Nat) : WalksInOrder shape size where
  order := by rw [visited_eq,map_offset_indices]
  all := fun target => by rw [visited_eq]
  loop := by
    intro src srcHeads dstSize dst
    rw [visited_eq,transposeLoop_eq src shape srcHeads size dstSize shape.prod 0 _ dst (add_zero _) zero_mem,drop_zero]

/-- The source element of a destination multi-index has the same entry along the axis that the permutation names. -/
def ElementsFrom (shape perm : List Nat) (size : Nat) (data result : List UInt8) : Prop :=
  ∀ target ∈ indices (transShapeByPerm shape perm), ∃ index ∈ indices shape,
    (∀ k < perm.length, index.getD (perm.getD k 0) 0 = target.getD k 0) ∧
      element size result (offset (transShapeByPerm shape perm) target) = element size data (offset shape index)

/-- What a transposition is for: the permuted tensor, its way back, and one transposition in place of two. A null pointer stands
for no bytes. -/
def TransposesTensor (shape perm : List Nat) (size : Nat) : Prop :=
  WalksInOrder (transShapeByPerm shape perm) size ∧ ∀ memory data, data.length = shape.prod * size → ∃ result,
    transposeInto memory (some data) (shape.map Int.ofNat) size perm = .ok result ∧
    result.length = shape.prod * size ∧ ElementsFrom shape perm size data (result.data.getD []) ∧
    (∀ memory', ∃ back,
      transposeInto memory' result.data ((transShapeByPerm shape perm).map Int.ofNat) size (inverse perm) = .ok back ∧
        back.length = data.length ∧ back.data.getD [] = data) ∧
    ∀ memory' memory'' order, order.Perm (List.range shape.length) →
      transposeInto memory' result.data ((transShapeByPerm shape perm).map Int.ofNat) size order =
        transposeInto memory'' (some data) (shape.map Int.ofNat) size (permute perm order)

theorem transposesTensor_of_full (positive : 0 < size) (small : size ≤ securecMemMaxLen) (some : shape ≠ [])
    (valid : perm.Perm (range shape.length)) (full : shape.prod ≠ 0) : TransposesTensor shape perm size := by
  refine ⟨walksInOrder _ _,?_⟩
  intro memory data whole
  obtain ⟨result,permuted,exec⟩ := transposeInto_full memory positive small some valid whole full
  have rank : (permute shape perm).length = shape.length := by rw [length_permute,length_of_valid valid]
  have some' : permute shape perm ≠ [] := by
    intro none
    rw [none] at rank
    exact some (length_eq_zero_iff.mp rank.symm)
  have whole' : result.length = (permute shape perm).prod * size := by rw [permuted.length,prod_permute valid]
  have full' : (permute shape perm).prod ≠ 0 := by rwa [prod_permute valid]
  -- a second transposition of the result is one of the data by the composed permutation
  have again : ∀ memory' order, order.Perm (range shape.length) → ∃ final,
      Permutes shape (permute perm order) size data final ∧
      transposeInto memory' (.some result) ((permute shape perm).map Int.ofNat) size order =
        .ok ⟨.some final,final.length⟩ := by
    intro memory' order second
    have second' : order.Perm (range (permute shape perm).length) := by rwa [rank]
    obtain ⟨final,twice,exec'⟩ := transposeInto_full memory' positive small some' second' whole' full'
    exact ⟨final,permuted.trans valid second twice,exec'⟩
  refine ⟨_,exec,permuted.length,?_,?_,?_⟩
  · intro target member
    obtain ⟨index,inside,rfl⟩ := exists_source valid member
    exact ⟨index,inside,fun k bound => (getD_permute bound).symm,permuted.elements index inside⟩
  · intro memory'
    obtain ⟨final,twice,exec'⟩ := again memory' (inverse perm) (inverse_valid valid)
    rw [permute_inverse valid] at twice
    have same : final = data := twice.unique (List.Perm.refl _) (.refl whole)
    exact ⟨_,exec',congrArg List.length same,same⟩
  · intro memory' memory'' order second
    obtain ⟨final,twice,exec'⟩ := again memory' order second
    obtain ⟨direct,once,exec''⟩ :=
      transposeInto_full memory'' positive small some (permute_valid valid second) whole full
    have same : final = direct := twice.unique (permute_valid valid second) once
    rw [exec'',← same]
    exact exec'

/-- Tensors without axes are refused; of a tensor without elements the result has a null pointer, which no transposition takes. -/
theorem transposesTensor_iff (shape perm : List Nat) (size : Nat) (valid : perm.Perm (List.range shape.length))
    (positive : 0 < size) (small : size ≤ securecMemMaxLen) : TransposesTensor shape perm size ↔ shape ≠ [] ∧ 0 ∉ shape := by
  constructor
  · rintro ⟨_,calls⟩
    obtain ⟨result,exec,_,_,back,_⟩ := calls (fun _ => 0) (List.replicate (shape.prod * size) 0) length_replicate
    have some : shape ≠ [] := by
      rintro rfl
      have refused : transpose (fun _ => 0) (List.replicate (([] : List Nat).prod * size) 0) [] size perm =
          .error .paramInvalid := if_pos (.inr (by simp [isShapeArgValid]))
      rw [map_nil,transposeInto,refused] at exec
      cases exec
    refine ⟨some,?_⟩
    intro zero
    obtain ⟨result,permuted,copied⟩ := transposeInto_eq (fun _ => 0) positive small some valid length_replicate
    rw [copied,if_pos (prod_eq_zero zero),permuted.length,prod_eq_zero zero,Nat.zero_mul] at exec
    cases exec
    obtain ⟨_,refused,_⟩ := back fun _ => 0
    cases refused
  · rintro ⟨some,full⟩
    exact transposesTensor_of_full positive small some valid (prod_ne_zero full)

theorem two_by_three : TransposesTensor [2,3] [1,0] 4 :=
  (transposesTensor_iff [2,3] [1,0] 4 (by decide) (by decide) (by decide)).mpr (by decide)

/-- A row without elements: the transposition back gets the null pointer of the first one. -/
theorem empty_row_fails :
    transposeInto (fun _ => 7) (some []) [0] 1 [0] = .ok ⟨none,0⟩ ∧
    transposeInto (fun _ => 7) none [0] 1 (inverse [0]) = .error .paramInvalid := by
  decide

end GraphEngine.Formats
