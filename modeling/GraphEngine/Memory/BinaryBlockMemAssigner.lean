import Mathlib.Data.Nat.Log
import Mathlib.Data.List.Sort

/-! The sizes of the blocks that memory is reused by. The collected sizes are cut into ranges that halve from the largest
down, small ranges are merged into the next, and the largest size of a range is its ceiling. -/

namespace GraphEngine.Memory.BinaryBlockMemAssigner

open List Option

def memAlignSize : Nat := 512

def kLargeBlockSize : Nat := 8388608

def kLargeBlockRangeSize : Nat := 2

/-- One pass of `PlanRanges`: what is left of the ranges, and whether one was erased. -/
def planPass (limit : Nat) : List Nat → List (List Nat) → List (List Nat) × Bool
  | _,[] => ([],false)
  | temp,range :: rest =>
    let range := range ++ temp
    if range = [] then ((planPass limit [] rest).1,true)
    else if range.length < limit ∧ rest ≠ [] ∧ ¬(kLargeBlockSize ≤ range.headD 0 ∧ kLargeBlockRangeSize ≤ range.length) then
      ((planPass limit range rest).1,true)
    else (range :: (planPass limit [] rest).1,(planPass limit [] rest).2)

theorem planPass_length (limit : Nat) (temp : List Nat) (ranges : List (List Nat)) :
    (planPass limit temp ranges).1.length + (planPass limit temp ranges).2.toNat ≤ ranges.length := by
  induction ranges generalizing temp with
  | nil => simp [planPass]
  | cons range rest ih =>
    have clear := ih []
    have kept := ih (range ++ temp)
    simp only [planPass,length_cons]
    split
    · simp only [Bool.toNat_true]
      omega
    · split
      · simp only [Bool.toNat_true]
        omega
      · simp only [length_cons]
        omega

def planRanges (limit : Nat) (ranges : List (List Nat)) : List (List Nat) :=
  if _changed : (planPass limit [] ranges).2 then planRanges limit (planPass limit [] ranges).1
  else (planPass limit [] ranges).1
termination_by ranges.length
decreasing_by
  have shorter := planPass_length limit [] ranges
  rw [_changed,Bool.toNat_true] at shorter
  exact shorter

/-- The ranges from `i` down to one; `sizes` descend. The range zero gets nothing. -/
def fillRanges (alignSize : Nat) : Nat → Nat → List Nat → List (List Nat) → List (List Nat)
  | 0,_,_,ranges => ranges
  | i + 1,rangeCeil,sizes,ranges =>
    if rangeCeil = 0 then replicate (i + 1) [] ++ ranges
    else
      fillRanges alignSize i (rangeCeil / 2) (sizes.dropWhile (rangeCeil / 2 + alignSize < ·))
        (sizes.takeWhile (rangeCeil / 2 + alignSize < ·) :: ranges)

/-- The logarithm is exact: the least power of two that is not below the quotient. -/
def rangeNumber (back minMemorySize : Nat) : Nat := max 1 (Nat.clog 2 ((back + minMemorySize - 1) / minMemorySize))

def minMemorySize (front back : Nat) : Nat := if memAlignSize < back then memAlignSize else front

/-- `GetMemoryRanges` of the ascending sizes; `none` if it fails. -/
def getMemoryRanges (sizes : List Nat) : Option (List Nat) :=
  match sizes.head?,sizes.getLast? with
  | some front,some back =>
    if front = 0 then none
    else
      let number := rangeNumber back (minMemorySize front back)
      let alignSize := if memAlignSize < back then memAlignSize else 0
      let ranges := planRanges (sizes.length / number) ([] :: fillRanges alignSize (number - 1) back sizes.reverse [])
      -- the last one of a sorted range is its largest
      some (ranges.filterMap List.max?).mergeSort
  | _,_ => some []

def getBlockSize (size : Nat) (ranges : List Nat) (useRange : Bool) : Nat :=
  if useRange then (ranges.find? (size ≤ ·)).getD size else (size + memAlignSize - 1) / memAlignSize * memAlignSize

structure Covers (sizes ceils : List Nat) : Prop where
  ascending : ceils.Pairwise (· ≤ ·)
  known : ∀ ceil ∈ ceils, ceil ∈ sizes
  found : ∀ size ∈ sizes, (ceils.find? (size ≤ ·)).isSome ∧ size ≤ getBlockSize size ceils true

section Plan
variable {limit x : Nat} {temp : List Nat} {ranges : List (List Nat)}

theorem mem_planPass (room : temp ≠ [] → ranges ≠ []) :
    x ∈ (planPass limit temp ranges).1.flatten ↔ x ∈ temp ∨ x ∈ ranges.flatten := by
  induction ranges generalizing temp with
  | nil =>
    have none : temp = [] := by simpa using room
    simp [planPass,none]
  | cons range rest ih =>
    have clear : x ∈ (planPass limit [] rest).1.flatten ↔ x ∈ [] ∨ x ∈ rest.flatten := ih nofun
    simp only [planPass,flatten_cons,mem_append]
    split
    · next none =>
      rw [append_eq_nil_iff] at none
      rw [clear,none.1,none.2]
      simp
    · split
      · next moved =>
        rw [ih fun _ => moved.2.1,mem_append]
        tauto
      · rw [flatten_cons,mem_append,mem_append,clear]
        simp only [not_mem_nil,false_or]
        tauto

theorem mem_planRanges : x ∈ (planRanges limit ranges).flatten ↔ x ∈ ranges.flatten := by
  induction ranges using planRanges.induct limit with
  | case1 ranges changed ih =>
    rw [planRanges,dif_pos changed,ih,mem_planPass fun some => absurd rfl some,or_iff_right not_mem_nil]
  | case2 ranges same => rw [planRanges,dif_neg same,mem_planPass fun some => absurd rfl some,or_iff_right not_mem_nil]

end Plan

section Fill
variable {alignSize i rangeCeil x : Nat} {sizes : List Nat} {ranges : List (List Nat)}

theorem mem_fillRanges : x ∈ ranges.flatten → x ∈ (fillRanges alignSize i rangeCeil sizes ranges).flatten := by
  induction i generalizing rangeCeil sizes ranges with
  | zero => exact id
  | succ i ih =>
    intro there
    rw [fillRanges]
    split
    · rw [flatten_append]
      exact mem_append_right _ there
    · apply ih
      rw [flatten_cons]
      exact mem_append_right _ there

theorem of_mem_fillRanges (there : x ∈ (fillRanges alignSize i rangeCeil sizes ranges).flatten) :
    x ∈ sizes ∨ x ∈ ranges.flatten := by
  induction i generalizing rangeCeil sizes ranges with
  | zero => exact .inr there
  | succ i ih =>
    rw [fillRanges] at there
    split at there
    · simpa using Or.inr there
    · rcases ih there with rest | taken
      · exact .inl ((dropWhile_sublist _).subset rest)
      · rw [flatten_cons,mem_append] at taken
        exact taken.imp_left ((takeWhile_sublist _).subset ·)

end Fill

theorem one_lt_rangeNumber {back least : Nat} (positive : 0 < least) : 1 < rangeNumber back least ↔ 2 * least < back := by
  have exponent : 1 < Nat.clog 2 ((back + least - 1) / least) ↔ 2 ^ 1 < (back + least - 1) / least :=
    Nat.lt_clog_iff_pow_lt Nat.one_lt_two
  rw [Nat.lt_div_iff_mul_lt positive] at exponent
  rw [rangeNumber]
  omega

section Ceilings
variable {ranges : List (List Nat)} {x : Nat}

theorem mem_ceils : x ∈ (ranges.filterMap List.max?).mergeSort → x ∈ ranges.flatten := by
  rw [mem_mergeSort,mem_filterMap]
  rintro ⟨range,there,isMax⟩
  exact mem_flatten.mpr ⟨range,there,max?_mem isMax⟩

theorem exists_ceil (there : x ∈ ranges.flatten) : ∃ ceil ∈ (ranges.filterMap List.max?).mergeSort, x ≤ ceil := by
  obtain ⟨range,known,inside⟩ := mem_flatten.mp there
  obtain ⟨ceil,isMax⟩ := isSome_iff_exists.mp (isSome_max?_of_mem inside)
  exact ⟨ceil,mem_mergeSort.mpr (mem_filterMap.mpr ⟨range,known,isMax⟩),(max?_eq_some_iff.mp isMax).2 x inside⟩

end Ceilings

/-- The sizes are covered just if there is more than one range, since the first of them stays empty. -/
theorem memory_ranges_cover_iff {sizes : List Nat} (some_ : sizes ≠ []) (ascending : sizes.Pairwise (· ≤ ·))
    (positive : ∀ size ∈ sizes, 0 < size) : (∃ ceils, getMemoryRanges sizes = some ceils ∧ Covers sizes ceils) ↔
      2 * minMemorySize (sizes.head some_) (sizes.getLast some_) < sizes.getLast some_ := by
  have frontPos := positive _ (head_mem some_)
  have backPos := positive _ (getLast_mem some_)
  have least : 0 < minMemorySize (sizes.head some_) (sizes.getLast some_) := by
    rw [minMemorySize]
    split
    · decide
    · exact frontPos
  rw [getMemoryRanges,head?_eq_some_head some_,getLast?_eq_some_getLast some_]
  simp only [frontPos.ne',if_false,some.injEq,exists_eq_left']
  rw [← one_lt_rangeNumber least]
  generalize isNumber : rangeNumber _ _ = number
  constructor
  · intro covers
    by_contra single
    have none : number - 1 = 0 := by omega
    obtain ⟨ceil,there,-⟩ := find?_isSome.mp (covers.found _ (getLast_mem some_)).1
    simpa [none,fillRanges] using mem_planRanges.mp (mem_ceils there)
  · intro many
    have room := isNumber ▸ many
    rw [one_lt_rangeNumber least] at room
    obtain ⟨count,isCount⟩ : ∃ count, number - 1 = count + 1 := ⟨number - 2,by omega⟩
    have reversed : sizes.reverse = sizes.getLast some_ :: sizes.dropLast.reverse := by
      rw [← reverse_concat,dropLast_concat_getLast]
    have placed : sizes.getLast some_ ∈ (planRanges (sizes.length / number) ([] :: fillRanges
        (if memAlignSize < sizes.getLast some_ then memAlignSize else 0) (number - 1) (sizes.getLast some_)
        sizes.reverse [])).flatten := by
      rw [mem_planRanges,flatten_cons,nil_append,isCount,fillRanges,if_neg backPos.ne']
      apply mem_fillRanges
      have above : sizes.getLast some_ / 2 + (if memAlignSize < sizes.getLast some_ then memAlignSize else 0) <
          sizes.getLast some_ := by
        rw [minMemorySize] at room
        split
        · next large =>
          rw [if_pos large] at room
          omega
        · omega
      rw [reversed,takeWhile_cons_of_pos (by simpa using above)]
      simp
    obtain ⟨top,isTop,atLeast⟩ := exists_ceil placed
    refine ⟨?_,?_,?_⟩
    · exact pairwise_mergeSort' (· ≤ ·) _
    · intro ceil there
      have inside := mem_planRanges.mp (mem_ceils there)
      rw [flatten_cons,nil_append] at inside
      rcases of_mem_fillRanges inside with known | none
      · exact mem_reverse.mp known
      · cases none
    · intro size known
      have below : size ≤ top := by
        rw [← dropLast_concat_getLast some_,pairwise_append] at ascending
        rw [← dropLast_concat_getLast some_,mem_append,mem_singleton] at known
        rcases known with before | rfl
        · exact (ascending.2.2 size before _ (mem_singleton.mpr rfl)).trans atLeast
        · exact atLeast
      have found : (find? (size ≤ ·) _).isSome := find?_isSome.mpr ⟨top,isTop,decide_eq_true below⟩
      obtain ⟨ceil,isCeil⟩ := isSome_iff_exists.mp found
      refine ⟨found,?_⟩
      rw [getBlockSize,if_pos rfl,isCeil,getD_some]
      simpa using find?_some isCeil

theorem one_range_is_empty : getMemoryRanges [512] = some [] ∧ [].find? (512 ≤ ·) = none ∧ ¬Covers [512] [] := by
  have ranges : getMemoryRanges [512] = some [] := by
    simp [getMemoryRanges,rangeNumber,minMemorySize,memAlignSize,fillRanges,planRanges,planPass]
  exact ⟨ranges,rfl,fun covers => absurd (covers.found 512 (by simp)).1 (by simp)⟩

theorem ranges_of_two : ∃ ceils, getMemoryRanges [512,2048] = some ceils ∧ Covers [512,2048] ceils :=
  (memory_ranges_cover_iff (by simp) (by simp) (by simp)).mpr (by simp [minMemorySize,memAlignSize])

end GraphEngine.Memory.BinaryBlockMemAssigner
