import Mathlib.Algebra.BigOperators.Ring.List
import GraphEngine.Lib.RowMajor

/-! Broadcasting of two shapes: which elements of the inputs an element of the output comes from. The list of index pairs
grows dimension by dimension from the innermost one by shifted copies of itself. -/

namespace GraphEngine.HostKernels
open Lib.RowMajor List

structure BCast where
  xReshape : List Nat
  yReshape : List Nat
  output : List Nat
  gradXReduceIdx : List Nat
  gradYReduceIdx : List Nat

def extendTensorDim (x y : List Nat) : List Nat × List Nat :=
  if x.length > y.length then (x,y ++ replicate (x.length - y.length) 1)
  else (x ++ replicate (y.length - x.length) 1,y)

/-- The loop over the reversed shapes from dimension `i` on; shapes that cannot be broadcast are an invalid parameter. -/
def setShapeDifferentInfo (n : Nat) : Nat → List Nat → List Nat → BCast → Option BCast
  | i,xI :: x,yI :: y,info =>
    let next (outputI : Nat) (gradX gradY : List Nat) : Option BCast :=
      setShapeDifferentInfo n (i + 1) x y ⟨info.xReshape ++ [xI],info.yReshape ++ [yI],info.output ++ [outputI],
        info.gradXReduceIdx ++ gradX,info.gradYReduceIdx ++ gradY⟩
    if xI = yI then
      if xI = 1 then next xI [n - 1 - i] [n - 1 - i] else next xI [] []
    else if xI = 1 then next yI [n - 1 - i] []
    else if yI = 1 then next xI [] [n - 1 - i]
    else none
  | _,_,_,info => some info

def generateBcastInfo (sx sy : List Nat) : Option BCast :=
  if sx = [] ∧ sy = [] then some ⟨[1],[1],[],[],[]⟩
  else
    let (x,y) := extendTensorDim sx.reverse sy.reverse
    (setShapeDifferentInfo x.length 0 x y ⟨[],[],[],[],[]⟩).map fun info => ⟨info.xReshape.reverse,info.yReshape.reverse,
      info.output.reverse,info.gradXReduceIdx.reverse,info.gradYReduceIdx.reverse⟩

structure Growth where
  indexes : List (Nat × Nat)
  xBias : Nat
  yBias : Nat

def firstDimension : Nat × Nat × Nat → Growth
  | (xDim,yDim,outDim) =>
    ⟨(List.range outDim).map fun i => (if xDim = 1 then 0 else i,if yDim = 1 then 0 else i),xDim,yDim⟩

def nextDimension (growth : Growth) : Nat × Nat × Nat → Growth
  | (xDim,yDim,outDim) =>
    ⟨growth.indexes ++ (List.range' 1 (outDim - 1)).flatMap fun j => growth.indexes.map fun (x,y) =>
      (x + if xDim = 1 then 0 else j * growth.xBias,y + if yDim = 1 then 0 else j * growth.yBias),
      growth.xBias * xDim,growth.yBias * yDim⟩

/-- Both lists of indexes, zipped. Two scalars have an empty output and the one pair of a dimension of size one. -/
def bCastIndexes (info : BCast) : List (Nat × Nat) :=
  match (info.xReshape.zip (info.yReshape.zip info.output)).reverse with
  | [] => (firstDimension (1,1,1)).indexes
  | first :: rest => (rest.foldl nextDimension (firstDimension first)).indexes

/-- The shape with leading ones up to the rank of the other one. -/
def extended (other shape : List Nat) : List Nat := replicate (other.length - shape.length) 1 ++ shape

def broadcastDim (x y : Nat) : Nat := if x = 1 then y else x

def broadcastShape (sx sy : List Nat) : List Nat := zipWith broadcastDim (extended sy sx) (extended sx sy)

def Compatible (sx sy : List Nat) : Prop := Forall₂ (fun x y => x = y ∨ x = 1 ∨ y = 1) (extended sy sx) (extended sx sy)

def place (shape index : List Nat) : Nat := offset shape (zipWith (fun dim i => if dim = 1 then 0 else i) shape index)

def inputOffset (shape index : List Nat) : Nat := place shape (index.drop (index.length - shape.length))

def onesOf (shape : List Nat) : List Nat := (List.range shape.length).filter fun axis => shape[axis]? = some 1

/-- One pair of offsets for each element of the output, in row-major order, and the axes of size one. -/
structure ExactInfo (sx sy : List Nat) (info : BCast) : Prop where
  output : info.output = broadcastShape sx sy
  count : (bCastIndexes info).length = (broadcastShape sx sy).prod
  pairs : ∀ index ∈ indices (broadcastShape sx sy),
    (bCastIndexes info)[offset (broadcastShape sx sy) index]? = some (inputOffset sx index,inputOffset sy index)
  gradX : info.gradXReduceIdx = onesOf (extended sy sx)
  gradY : info.gradYReduceIdx = onesOf (extended sx sy)

section Info

theorem reverse_onesOf (dim : Nat) (dims : List Nat) : (onesOf (dim :: dims).reverse).reverse =
    (if dim = 1 then [dims.length] else []) ++ (onesOf dims.reverse).reverse := by
  have same : (range dims.length).filter (fun axis => (dims.reverse ++ [dim])[axis]? = some 1) =
      (range dims.length).filter fun axis => dims.reverse[axis]? = some 1 := by
    apply filter_congr
    intro axis inside
    rw [getElem?_append_left (by simpa using inside)]
  rw [onesOf,onesOf,length_reverse,length_reverse,length_cons,range_succ,filter_append,reverse_cons,reverse_append,same]
  by_cases one : dim = 1 <;> simp [one]

theorem setShapeDifferentInfo_eq {n i : Nat} {x y : List Nat} (compatible : Forall₂ (fun x y => x = y ∨ x = 1 ∨ y = 1) x y)
    (whole : i + x.length = n) (info : BCast) : setShapeDifferentInfo n i x y info =
      some ⟨info.xReshape ++ x,info.yReshape ++ y,info.output ++ zipWith broadcastDim x y,
        info.gradXReduceIdx ++ (onesOf x.reverse).reverse,info.gradYReduceIdx ++ (onesOf y.reverse).reverse⟩ := by
  induction compatible generalizing i info with
  | nil => simp [setShapeDifferentInfo,onesOf]
  | @cons xI yI x y dims rest ih =>
    rw [length_cons] at whole
    have axis : n - 1 - i = x.length := by omega
    have length := rest.length_eq
    have later := fun info => ih (by omega : i + 1 + x.length = n) info
    simp only [setShapeDifferentInfo,later,axis,reverse_onesOf,zipWith_cons_cons,append_assoc,singleton_append,broadcastDim]
    split_ifs <;> simp_all

variable {sx sy : List Nat}

theorem generateBcastInfo_spec (compatible : Compatible sx sy) : ∃ info, generateBcastInfo sx sy = some info ∧
    info.output = broadcastShape sx sy ∧ info.gradXReduceIdx = onesOf (extended sy sx) ∧
    info.gradYReduceIdx = onesOf (extended sx sy) ∧
    info.xReshape.zip (info.yReshape.zip info.output) = (extended sy sx).zip ((extended sx sy).zip info.output) := by
  have wide : extendTensorDim sx.reverse sy.reverse = ((extended sy sx).reverse,(extended sx sy).reverse) := by
    unfold extendTensorDim extended
    split <;> simp_all [le_of_lt]
  unfold generateBcastInfo
  split
  · next scalars =>
    obtain ⟨rfl,rfl⟩ := scalars
    exact ⟨_,rfl,rfl,rfl,rfl,rfl⟩
  · rw [wide]
    dsimp only
    rw [setShapeDifferentInfo_eq (rel_reverse compatible) (zero_add _)]
    refine ⟨_,rfl,?_⟩
    simp [broadcastShape,reverse_zipWith,compatible.length_eq]

end Info

section Indexes

def pairsOf (dims : List (Nat × Nat × Nat)) : List (Nat × Nat) :=
  (indices (dims.map (·.2.2))).map fun index => (place (dims.map (·.1)) index,place (dims.map (·.2.1)) index)

theorem place_extended (k : Nat) (shape index : List Nat) :
    place (replicate k 1 ++ shape) index = place shape (index.drop k) := by
  induction k generalizing index with
  | zero => rfl
  | succ k ih =>
    cases index with
    | nil => cases shape <;> simp [place,offset]
    | cons i index =>
      rw [drop_succ_cons,← ih]
      simp [place,offset,replicate_succ]

theorem pairsOf_cons (dim : Nat × Nat × Nat) (dims : List (Nat × Nat × Nat)) : pairsOf (dim :: dims) =
    (range dim.2.2).flatMap fun j => (pairsOf dims).map fun (x,y) =>
      (x + if dim.1 = 1 then 0 else j * (dims.map (·.1)).prod,y + if dim.2.1 = 1 then 0 else j * (dims.map (·.2.1)).prod) := by
  simp only [pairsOf,map_cons,indices,map_flatMap,map_map]
  congr! 3 with j
  funext index
  simp only [Function.comp_apply,place,zipWith_cons_cons,offset,ite_mul,zero_mul,add_comm]

theorem grown (front : List (Nat × Nat × Nat)) (last : Nat × Nat × Nat) (full : last.2.2 = 0 ∨ 0 ∉ front.map (·.2.2)) :
    front.foldr (fun dim growth => nextDimension growth dim) (firstDimension last) = ⟨pairsOf (front ++ [last]),
      ((front ++ [last]).map (·.1)).prod,((front ++ [last]).map (·.2.1)).prod⟩ := by
  induction front with
  | nil => simp [firstDimension,pairsOf,indices,place,offset,← map_eq_flatMap]
  | cons dim front ih =>
    rw [foldr_cons,ih (full.imp_right fun absent inside => absent (mem_cons_of_mem _ inside)),cons_append,pairsOf_cons]
    simp only [nextDimension,map_cons,prod_cons,mul_comm dim.1,mul_comm dim.2.1,Growth.mk.injEq,and_true]
    rcases full with none | absent
    · have empty : pairsOf (front ++ [last]) = [] := by
        rw [← length_eq_zero_iff,pairsOf,length_map,length_indices]
        simp [none]
      simp [empty,flatMap_eq_nil_iff.mpr]
    · have some : 0 < dim.2.2 := Nat.pos_of_ne_zero fun zero => absent (by simp [zero])
      obtain ⟨more,size⟩ := Nat.exists_eq_add_one.mpr some
      rw [size,range_eq_range',range'_succ,flatMap_cons]
      simp

theorem grown_ne_nil (front : List (Nat × Nat × Nat)) {last : Nat × Nat × Nat} (some : last.2.2 ≠ 0) :
    (front.foldr (fun dim growth => nextDimension growth dim) (firstDimension last)).indexes ≠ [] := by
  induction front with
  | nil => simpa [firstDimension] using some
  | cons dim front ih => exact append_ne_nil_of_left_ne_nil ih _

end Indexes

/-- The pairs are exact just if no dimension but the innermost one is zero, or that one is: a zero dimension further out
keeps the pairs of the dimensions within it. The axes to reduce are always exact. -/
theorem bCast_exact_iff (sx sy : List Nat) (compatible : Compatible sx sy) : ∃ info, generateBcastInfo sx sy = some info ∧
    (ExactInfo sx sy info ↔ (broadcastShape sx sy).getLast? = some 0 ∨ 0 ∉ broadcastShape sx sy) := by
  obtain ⟨info,made,output,gradX,gradY,zipped⟩ := generateBcastInfo_spec compatible
  refine ⟨info,made,?_⟩
  have lengths := compatible.length_eq
  have rank : (broadcastShape sx sy).length = (extended sy sx).length := by simp [broadcastShape,lengths]
  generalize dimsEq : info.xReshape.zip (info.yReshape.zip info.output) = dims at zipped
  rw [output] at zipped
  have xs : dims.map (·.1) = extended sy sx := by
    rw [zipped]
    exact map_fst_zip (by simp [lengths,rank])
  have pairs : dims.map (·.2) = (extended sx sy).zip (broadcastShape sx sy) := by
    rw [zipped]
    exact map_snd_zip (by simp [lengths,rank])
  have ys : dims.map (·.2.1) = extended sx sy := by
    rw [← Function.comp_def,← map_map,pairs]
    exact map_fst_zip (by rw [rank,lengths])
  have outs : dims.map (·.2.2) = broadcastShape sx sy := by
    rw [← Function.comp_def,← map_map,pairs]
    exact map_snd_zip (by rw [rank,lengths])
  have exact_of : bCastIndexes info = pairsOf dims → ExactInfo sx sy info := by
    intro same
    refine ⟨output,?_,?_,gradX,gradY⟩
    · rw [same,pairsOf,length_map,length_indices,outs]
    · intro index inside
      have xRank : index.length = (extended sy sx).length := (length_of_mem inside).trans rank
      have yRank := xRank.trans lengths
      rw [same,pairsOf,outs,xs,ys,getElem?_map,getElem?_indices inside,Option.map_some,inputOffset,inputOffset]
      rw [extended,length_append,length_replicate] at xRank yRank
      rw [extended,extended,place_extended,place_extended,Nat.sub_eq_of_eq_add xRank,Nat.sub_eq_of_eq_add yRank]
  rcases eq_nil_or_concat dims with none | ⟨front,last,parts⟩
  · have scalar : broadcastShape sx sy = [] := by rw [← outs,none]; rfl
    refine ⟨fun _ => .inr (by simp [scalar]),fun _ => exact_of ?_⟩
    simp [bCastIndexes,dimsEq,none,firstDimension,pairsOf,indices,place,offset]
  · have indexes : bCastIndexes info =
        (front.foldr (fun dim growth => nextDimension growth dim) (firstDimension last)).indexes := by
      simp [bCastIndexes,dimsEq,parts]
    rw [concat_eq_append] at parts
    rw [← outs,parts,map_append,map_singleton,getLast?_concat,Option.some_inj]
    constructor
    · intro exactly
      refine or_iff_not_imp_left.mpr fun some inside => grown_ne_nil front some ?_
      rw [← indexes,← length_eq_zero_iff,exactly.count,← outs,parts,map_append]
      exact prod_eq_zero inside
    · intro full
      refine exact_of ?_
      rw [indexes,grown front last (full.imp_right fun absent inside => absent (mem_append_left _ inside)),parts]

theorem bCast_row_and_column : ∃ info, generateBcastInfo [2,1] [3] = some info ∧ ExactInfo [2,1] [3] info := by
  obtain ⟨info,made,exactly⟩ := bCast_exact_iff [2,1] [3] (by simp [Compatible,extended])
  exact ⟨info,made,exactly.mpr (.inr (by decide))⟩

/-- Two shapes of no element have two index pairs. -/
theorem bCast_outer_zero : Compatible [0,2] [0,2] ∧ ∃ info, generateBcastInfo [0,2] [0,2] = some info ∧
    bCastIndexes info = [(0,0),(1,1)] ∧ (broadcastShape [0,2] [0,2]).prod = 0 ∧ ¬ExactInfo [0,2] [0,2] info :=
  ⟨by simp [Compatible,extended],_,rfl,rfl,rfl,fun exactly => absurd exactly.count (by decide)⟩

end GraphEngine.HostKernels
