import GraphEngine.Formats.Nc1hwc0

/-! `Transpose` goes through the destination in order; `AddOne` counts its multi-index up like an odometer. -/

namespace GraphEngine.Formats

open Lib.RowMajor Lib.ElementBuffer List

variable {i : Nat} {shape index : List Nat}

theorem modify_append_left (xs ys : List Nat) (f : Nat → Nat) (bound : i < xs.length) :
    (xs ++ ys).modify i f = xs.modify i f ++ ys := by
  rw [modify_eq_set,modify_eq_set,getElem?_append_left bound,set_append_left _ _ bound]

theorem carry_concat (same : index.length = shape.length) (count x : Nat)
    (bound : i < index.length) : carry (shape ++ [count]) i (index ++ [x]) = carry shape i index ++ [x] := by
  induction i generalizing index with
  | zero => rfl
  | succ i ih =>
    have first : (shape ++ [count]).getD (i + 1) 0 = shape.getD (i + 1) 0 := getD_append _ _ _ _ (same ▸ bound)
    have second : (index ++ [x]).getD (i + 1) 0 = index.getD (i + 1) 0 := getD_append _ _ _ _ bound
    rw [carry,carry,first,second]
    split
    · rw [set_append_left _ _ bound,modify_append_left _ _ _ (by rw [length_set]; omega)]
      apply ih
      · simpa using same
      · simp only [length_modify,length_set]
        omega
    · rfl

theorem addOne_single (count i : Nat) : addOne [count] [i] = [i + 1] := rfl

theorem addOne_concat (same : index.length = shape.length) (some : 0 < index.length)
    (count i : Nat) : addOne (shape ++ [count]) (index ++ [i]) =
      if count ≤ i + 1 then addOne shape index ++ [0] else index ++ [i + 1] := by
  obtain ⟨k,length⟩ : ∃ k, index.length = k + 1 := ⟨index.length - 1,by omega⟩
  have counted : (index ++ [i]).modify (k + 1) (· + 1) = index ++ [i + 1] := by
    rw [← length,modify_eq_set]
    simp
  unfold addOne
  rw [length_append,length_singleton,Nat.add_sub_cancel,length,counted,Nat.add_sub_cancel,carry]
  have first : (shape ++ [count]).getD (k + 1) 0 = count := by
    rw [← length,same]
    simp
  have second : (index ++ [i + 1]).getD (k + 1) 0 = i + 1 := by
    rw [← length]
    simp
  rw [first,second]
  split
  · have cleared : (index ++ [i + 1]).set (k + 1) 0 = index ++ [0] := by
      rw [← length]
      simp
    rw [cleared,modify_append_left _ _ _ (by omega),carry_concat]
    · simpa using same
    · rw [length_modify]
      omega
  · rfl

theorem addOne_spec (inside : index ∈ indices shape) (more : offset shape index + 1 < shape.prod) :
    addOne shape index ∈ indices shape ∧ offset shape (addOne shape index) = offset shape index + 1 := by
  induction shape using List.reverseRecOn generalizing index with
  | nil => simp at more
  | append_singleton shape count ih =>
    obtain ⟨front,i,rfl,member,bound⟩ := eq_concat_of_mem inside
    have same := length_of_mem member
    rw [offset_concat same,prod_append,prod_singleton] at more
    rw [offset_concat same]
    cases shape with
    | nil =>
      rw [mem_singleton.mp member] at more ⊢
      have next : i + 1 < count := by simpa [offset] using more
      simp only [nil_append,addOne_single]
      exact ⟨mem_indices_cons.mpr ⟨next,nil_mem_indices⟩,by simp [offset]⟩
    | cons first shape =>
      rw [addOne_concat same (by rw [same]; exact Nat.succ_pos _)]
      split
      · next full =>
        -- the last axis is full, so that the axes before it are counted up
        have last : i + 1 = count := by omega
        have carried : (offset (first :: shape) front + 1) * count < (first :: shape).prod * count := by
          rw [Nat.succ_mul]
          omega
        obtain ⟨member',counted⟩ := ih member (Nat.lt_of_mul_lt_mul_right carried)
        refine ⟨concat_mem member' (by omega),?_⟩
        rw [offset_concat (length_of_mem member'),counted,Nat.succ_mul]
        omega
      · next room =>
        refine ⟨concat_mem member (by omega),?_⟩
        rw [offset_concat same]
        omega

variable {size : Nat} {data : List UInt8}

def transposeStep (src : List UInt8) (dstShape srcHeads : List Nat) (dataSize dstSize : Nat) (dst : List UInt8)
    (index : List Nat) : Except TransError (List UInt8) :=
  copyElement src dstSize (offset dstShape index * dataSize) (genOffset srcHeads index * dataSize) dataSize dst

theorem drop_indices {index : List Nat} (inside : index ∈ indices shape) :
    (indices shape).drop (offset shape index) = index :: (indices shape).drop (offset shape index + 1) := by
  obtain ⟨bound,found⟩ := List.getElem?_eq_some_iff.mp (getElem?_indices inside)
  rw [drop_eq_getElem_cons bound,found]

theorem drop_indices_all {k : Nat} (none : 0 + k = shape.prod) : (indices shape).drop k = [] :=
  drop_eq_nil_of_le (by rw [length_indices]; omega)

theorem transposeLoop_eq (src : List UInt8) (dstShape srcHeads : List Nat) (dataSize dstSize left k : Nat)
    (index : List Nat) (dst : List UInt8) (remaining : left + k = dstShape.prod)
    (current : 0 < left → index ∈ indices dstShape ∧ offset dstShape index = k) :
    transposeLoop src dstShape srcHeads dataSize dstSize left k index dst =
      ((indices dstShape).drop k).foldlM (transposeStep src dstShape srcHeads dataSize dstSize) dst := by
  induction left generalizing k index dst with
  | zero => rw [drop_indices_all remaining]; rfl
  | succ left ih =>
    obtain ⟨inside,rfl⟩ := current (Nat.succ_pos left)
    rw [drop_indices inside,foldlM_cons,transposeLoop,transposeStep]
    congr 1
    funext dst
    exact ih _ _ dst (by omega) fun more => addOne_spec inside (by omega)

theorem zero_mem (some : 0 < shape.prod) :
    (shape.map fun _ => 0) ∈ indices shape ∧ offset shape (shape.map fun _ => 0) = 0 := by
  induction shape with
  | nil => exact ⟨nil_mem_indices,rfl⟩
  | cons count shape ih =>
    rw [prod_cons] at some
    obtain ⟨member,zero⟩ := ih (Nat.pos_of_mul_pos_left some)
    refine ⟨mem_indices_cons.mpr ⟨Nat.pos_of_mul_pos_right some,member⟩,?_⟩
    rw [map_cons,offset,zero,zero_mul]

theorem items_cast (shape : List Nat) : getItemNumByShape (shape.map Int.ofNat) = shape.prod := by
  have general : ∀ (shape : List Nat) (start : Nat), (shape.map Int.ofNat).foldl (· * ·) (start : Int) =
      (start * shape.prod : Nat) := by
    intro shape
    induction shape with
    | nil => simp
    | cons count shape ih =>
      intro start
      have step : (start : Int) * Int.ofNat count = ((start * count : Nat) : Int) := by simp
      rw [map_cons,foldl_cons,step,ih,prod_cons,mul_assoc]
  have whole := general shape 1
  rwa [one_mul] at whole

theorem transpose_spec (positive : 0 < size) (small : size ≤ securecMemMaxLen) (memory : Nat → UInt8)
    (shape perm : List Nat) {srcItems : Nat} (valid : isShapeArgValid (shape.map Int.ofNat) perm)
    (whole : data.length = srcItems * size) (inside : ∀ index ∈ indices (transShapeByPerm shape perm),
      genOffset (transShapeByPerm (genHeads shape) perm) index < srcItems) :
    ∃ result, transpose memory data (shape.map Int.ofNat) size perm = .ok result ∧
      result.length = (transShapeByPerm shape perm).prod * size ∧ ∀ index ∈ indices (transShapeByPerm shape perm),
        element size result (offset (transShapeByPerm shape perm) index) =
          element size data (genOffset (transShapeByPerm (genHeads shape) perm) index) := by
  have shapeEq : (shape.map Int.ofNat).map Int.toNat = shape := by
    rw [map_map]
    exact map_id shape
  have accepted : ¬((size : Int) < 0 ∨ ¬isShapeArgValid (shape.map Int.ofNat) perm) := by
    rw [not_or,not_not]
    exact ⟨by omega,valid⟩
  unfold transpose
  rw [if_neg accepted,shapeEq]
  dsimp only
  rw [items_cast,Int.toNat_natCast,Int.toNat_natCast]
  generalize transShapeByPerm shape perm = dstShape at inside ⊢
  by_cases none : dstShape.prod = 0
  · rw [if_pos none]
    refine ⟨[],rfl,by simp [none],?_⟩
    intro index member
    have := offset_lt member
    omega
  · have start := zero_mem (Nat.pos_of_ne_zero none)
    rw [if_neg none,mul_comm,transposeLoop_eq _ _ _ _ _ dstShape.prod 0 _ _ (add_zero _) fun _ => start,
      drop_zero]
    obtain ⟨result,exec,length,written,_⟩ := foldlM_writes (indices dstShape) (nodup_offsets dstShape)
      (fun index member => offset_lt member) (fun index member => length_element whole (inside index member))
      (fun index member dst _ => copyElement_ok positive small (offset_lt member) whole (inside index member))
      (allocate memory (dstShape.prod * size)) (length_allocate memory _)
    exact ⟨result,exec,length,written⟩

theorem transFormatTranspose_nhwc {n c h w : Nat} (positive : 0 < size) (small : size ≤ securecMemMaxLen)
    (memory : Nat → UInt8) (c0 : Int) (whole : data.length = [n,c,h,w].prod * size) : ∃ result,
    transFormatTranspose memory .nchw .nhwc ⟨data,[n,c,h,w],[n,h,w,c],size,c0⟩ = .ok result ∧
      result.length = [n,h,w,c].prod * size ∧ ∀ a < n, ∀ i < c, ∀ x < h, ∀ y < w,
        element size result (nhwcPlace n c h w a i x y) = element size data (nchwPlace n c h w a i x y) := by
  have valid : isShapeArgValid [(n : Int),c,h,w] [0,2,3,1] := by
    simp [isShapeArgValid]
  have place : ∀ a x y i, genOffset (transShapeByPerm (genHeads [n,c,h,w]) [0,2,3,1]) [a,x,y,i] =
      nchwPlace n c h w a i x y := by
    intro a x y i
    simp [genOffset,transShapeByPerm,genHeads,nchwPlace,offset]
    ring
  have inside : ∀ index ∈ indices [n,h,w,c],
      genOffset (transShapeByPerm (genHeads [n,c,h,w]) [0,2,3,1]) index < [n,c,h,w].prod := by
    simp only [forall_indices_cons,forall_indices_nil]
    intro a aBound x xBound y yBound i iBound
    rw [place]
    exact offset_lt (mem_indices_four aBound iBound xBound yBound)
  obtain ⟨result,exec,length,elements⟩ := transpose_spec positive small memory [n,c,h,w] [0,2,3,1] valid whole inside
  refine ⟨result,?_,length,?_⟩
  · rw [← exec]
    simp [transFormatTranspose,permArgs,valid,dim]
  · intro a aBound i iBound x xBound y yBound
    rw [← place]
    exact elements _ (mem_indices_four aBound xBound yBound iBound)

end GraphEngine.Formats
