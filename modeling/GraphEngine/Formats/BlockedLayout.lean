import GraphEngine.Formats.FormatTransfer

/-! What the loops of the transfers write, element by element. -/

namespace GraphEngine.Formats

open Lib.RowMajor Lib.ElementBuffer

variable {size items : Nat} {data dst : List UInt8}

theorem length_allocate (memory : Nat → UInt8) (total : Nat) : (allocate memory total).length = total := by
  rw [allocate,List.length_map,List.length_range]

section Elements

variable {i j : Nat} (positive : 0 < size) (small : size ≤ securecMemMaxLen) (bound : i < items)
include positive small bound

theorem checkProtected_ok : checkProtected (items * size) (i * size) size = .ok () := by
  have fits : i * size + size ≤ items * size := cell_bound bound
  have room : size ≤ min (items * size - i * size) securecMemMaxLen := by omega
  unfold checkProtected
  rw [if_neg (by omega)]
  exact if_neg (by omega)

theorem copyElement_ok {srcItems : Nat} (whole : data.length = srcItems * size) (inside : j < srcItems) :
    copyElement data (items * size) (i * size) (j * size) size dst =
      .ok (overwrite dst (i * size) (element size data j)) := by
  have fits : j * size + size ≤ srcItems * size := cell_bound inside
  rw [copyElement,checkProtected_ok positive small bound]
  exact if_neg (by omega)

theorem clearElement_ok : clearElement (items * size) (i * size) size dst =
    .ok (overwrite dst (i * size) (List.replicate size 0)) := by
  rw [clearElement,checkProtected_ok positive small bound]
  rfl

end Elements

theorem nest_writes (shape : List Nat) (body : List Nat → List UInt8 → Except TransError (List UInt8))
    (value : List Nat → List UInt8) (length : ∀ index ∈ indices shape, (value index).length = size)
    (writes : ∀ index ∈ indices shape, ∀ dst, body index dst = .ok (overwrite dst (offset shape index * size) (value index)))
    (memory : Nat → UInt8) : ∃ final, nest shape body (allocate memory (shape.prod * size)) = .ok final ∧
      final.length = shape.prod * size ∧ ∀ index ∈ indices shape, element size final (offset shape index) = value index := by
  rw [nest_eq]
  obtain ⟨final,result,whole,written,_⟩ := foldlM_writes (indices shape) (nodup_offsets shape)
    (fun index inside => offset_lt inside) length (fun index inside dst _ => writes index inside dst)
    (allocate memory (shape.prod * size)) (length_allocate memory _)
  exact ⟨final,result,whole,written⟩

def blocks (c c0 : Nat) : Nat := (ceil c c0).toNat

theorem blocks_zero (c0 : Nat) : blocks 0 c0 = 0 := rfl

theorem ceil_eq_blocks (c c0 : Nat) : ceil c c0 = blocks c c0 := by
  unfold blocks ceil
  split
  · rfl
  · next positive =>
    split
    · have nonneg : 0 ≤ ((c : Int) - 1).tdiv c0 := Int.tdiv_nonneg (by omega) (Int.natCast_nonneg c0)
      omega
    · rfl

theorem blocks_eq {c c0 : Nat} (positive : 0 < c) (c0Pos : 0 < c0) : blocks c c0 = (c - 1) / c0 + 1 := by
  have divided : ((c : Int) - 1).tdiv c0 = ((c - 1) / c0 : Nat) := by
    rw [show (c : Int) - 1 = ((c - 1 : Nat) : Int) by omega]
    rfl
  unfold blocks ceil
  rw [if_neg (by omega),if_pos (by omega),divided]
  exact Int.toNat_natCast ((c - 1) / c0 + 1)

theorem div_lt_blocks {c c0 i : Nat} (c0Pos : 0 < c0) (bound : i < c) : i / c0 < blocks c c0 := by
  rw [blocks_eq (Nat.zero_lt_of_lt bound) c0Pos,Nat.lt_succ_iff]
  exact Nat.div_le_div_right (by omega)

theorem tile_parts {w0 k : Nat} (bound : k < w0) {tile : Nat} : (tile * w0 + k) / w0 = tile ∧ (tile * w0 + k) % w0 = k := by
  rw [mul_comm,Nat.mul_add_div (Nat.zero_lt_of_lt bound),Nat.div_eq_of_lt bound,Nat.mul_add_mod,Nat.mod_eq_of_lt bound]
  exact ⟨add_zero tile,rfl⟩

def blockedStep (data : List UInt8) (totalSize size c c0 : Nat) (place : Nat → Nat → Nat → Nat → Nat → Nat)
    (source : Nat → Nat → Nat → Nat → Nat) (a b x y z : Nat) (dst : List UInt8) : Except TransError (List UInt8) :=
  if z + b * c0 < c then copyElement data totalSize (place a b x y z * size) (source a (z + b * c0) x y * size) size dst
  else clearElement totalSize (place a b x y z * size) size dst

def blockedValue (data : List UInt8) (size c c0 : Nat) (source : Nat → Nat → Nat → Nat → Nat) (a b x y z : Nat) :
    List UInt8 :=
  if z + b * c0 < c then element size data (source a (z + b * c0) x y) else List.replicate size 0

section Loops

variable {srcItems : Nat} (positive : 0 < size) (small : size ≤ securecMemMaxLen) (whole : data.length = srcItems * size)
include positive small whole

theorem blockedLoops_spec (n c1 h w c0 c : Nat) (place : Nat → Nat → Nat → Nat → Nat → Nat)
    (placeEq : ∀ a b x y z, place a b x y z = offset [n,c1,h,w,c0] [a,b,x,y,z]) (source : Nat → Nat → Nat → Nat → Nat)
    (inside : ∀ a < n, ∀ i < c, ∀ x < h, ∀ y < w, source a i x y < srcItems) (memory : Nat → UInt8) {totalSize : Nat}
    (total : totalSize = [n,c1,h,w,c0].prod * size) : ∃ final,
    forLoop n (fun a => forLoop c1 fun b => forLoop h fun x => forLoop w fun y => forLoop c0 fun z dst =>
      blockedStep data totalSize size c c0 place source a b x y z dst) (allocate memory totalSize) = .ok final ∧
    final.length = totalSize ∧ ∀ a < n, ∀ b < c1, ∀ x < h, ∀ y < w, ∀ z < c0,
      element size final (offset [n,c1,h,w,c0] [a,b,x,y,z]) = blockedValue data size c c0 source a b x y z := by
  subst total
  have length : ∀ index ∈ indices [n,c1,h,w,c0], (at5 [] (blockedValue data size c c0 source) index).length = size := by
    simp only [forall_indices_cons,forall_indices_nil]
    intro a aBound b _ x xBound y yBound z _
    dsimp only [at5,blockedValue]
    split
    · next channel => exact length_element whole (inside a aBound _ channel x xBound y yBound)
    · exact List.length_replicate
  have writes : ∀ index ∈ indices [n,c1,h,w,c0], ∀ dst,
      at5 .ok (blockedStep data ([n,c1,h,w,c0].prod * size) size c c0 place source) index dst =
        .ok (overwrite dst (offset [n,c1,h,w,c0] index * size) (at5 [] (blockedValue data size c c0 source) index)) := by
    simp only [forall_indices_cons,forall_indices_nil]
    intro a aBound b bBound x xBound y yBound z zBound dst
    have bound := offset_lt (mem_indices_five aBound bBound xBound yBound zBound)
    dsimp only [at5,blockedStep,blockedValue]
    rw [placeEq]
    split
    · next channel => exact copyElement_ok positive small bound whole (inside a aBound _ channel x xBound y yBound)
    · exact clearElement_ok positive small bound
  obtain ⟨final,result,finalLength,written⟩ := nest_writes [n,c1,h,w,c0] _ _ length writes memory
  refine ⟨final,result,finalLength,?_⟩
  intro a aBound b bBound x xBound y yBound z zBound
  exact written _ (mem_indices_five aBound bBound xBound yBound zBound)

theorem plainLoops_spec (d0 d1 d2 d3 : Nat) (place source : Nat → Nat → Nat → Nat → Nat)
    (placeEq : ∀ a b x y, place a b x y = offset [d0,d1,d2,d3] [a,b,x,y])
    (inside : ∀ a < d0, ∀ b < d1, ∀ x < d2, ∀ y < d3, source a b x y < srcItems) (memory : Nat → UInt8) {totalSize : Nat}
    (total : totalSize = [d0,d1,d2,d3].prod * size) : ∃ final,
    forLoop d0 (fun a => forLoop d1 fun b => forLoop d2 fun x => forLoop d3 fun y dst =>
      copyElement data totalSize (place a b x y * size) (source a b x y * size) size dst)
      (allocate memory totalSize) = .ok final ∧
    final.length = totalSize ∧ ∀ a < d0, ∀ b < d1, ∀ x < d2, ∀ y < d3,
      element size final (offset [d0,d1,d2,d3] [a,b,x,y]) = element size data (source a b x y) := by
  subst total
  have length : ∀ index ∈ indices [d0,d1,d2,d3],
      (at4 [] (fun a b x y => element size data (source a b x y)) index).length = size := by
    simp only [forall_indices_cons,forall_indices_nil]
    intro a aBound b bBound x xBound y yBound
    exact length_element whole (inside a aBound b bBound x xBound y yBound)
  have writes : ∀ index ∈ indices [d0,d1,d2,d3], ∀ dst,
      at4 .ok (fun a b x y => copyElement data ([d0,d1,d2,d3].prod * size) (place a b x y * size) (source a b x y * size)
        size) index dst = .ok (overwrite dst (offset [d0,d1,d2,d3] index * size)
          (at4 [] (fun a b x y => element size data (source a b x y)) index)) := by
    simp only [forall_indices_cons,forall_indices_nil]
    intro a aBound b bBound x xBound y yBound dst
    have bound := offset_lt (mem_indices_four aBound bBound xBound yBound)
    dsimp only [at4]
    rw [placeEq]
    exact copyElement_ok positive small bound whole (inside a aBound b bBound x xBound y yBound)
  obtain ⟨final,result,finalLength,written⟩ := nest_writes [d0,d1,d2,d3] _ _ length writes memory
  refine ⟨final,result,finalLength,?_⟩
  intro a aBound b bBound x xBound y yBound
  exact written _ (mem_indices_four aBound bBound xBound yBound)

end Loops

end GraphEngine.Formats
