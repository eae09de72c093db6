import GraphEngine.Formats.FractalZGroups

/-! The transfer to FRACTAL_Z with groups. The shape is derived with the groups for NCHW and for HWCN; the data of NCHW are moved
without them. -/

namespace GraphEngine.Formats

open Lib.RowMajor Lib.ElementBuffer Lib.Placement Lib

variable {h w c cout c0 groups e size : Nat} {data : List UInt8}

section Shape

def groupShape (h w c cout c0 groups e : Nat) : List Nat :=
  [blocks groups e * blocks (e * c) c0 * h * w,blocks (e * cout) 16,16,c0]

abbrev packedShape (h w c cout c0 groups : Nat) : List Nat := groupShape h w c cout c0 groups (packing c cout c0 groups)

abbrev packedAxes (h w c cout c0 groups : Nat) : List Nat := groupAxes h w c cout c0 groups (packing c cout c0 groups)

theorem group_kernels (cout : Nat) {groups : Nat} (several : 1 < groups) :
    ((groups * cout : Nat) : Int).tdiv groups = cout := by
  have : ((groups * cout : Nat) : Int).tdiv groups = (groups * cout / groups : Nat) := rfl
  rw [this,Nat.mul_div_cancel_left cout (by omega)]

theorem transShapeToFzWithGroups_eq (cPos : 0 < c) (coutPos : 0 < cout) (c0Pos : 0 < c0) (several : 1 < groups) :
    transShapeToFzWithGroups (groups * cout : Nat) c h w c0 groups =
      if isShapeValid ((packedShape h w c cout c0 groups).map Int.ofNat) then
        .ok ((packedShape h w c cout c0 groups).map Int.ofNat)
      else .error .shapeInvalid := by
  have kernels := group_kernels cout several
  have blocked (e : Nat) : (ceil ((e : Int) * c) c0 * c0).tdiv c0 = blocks (e * c) c0 := by
    rw [← Int.natCast_mul,ceil_eq_blocks]
    exact Int.mul_tdiv_cancel _ (by omega)
  have rows (e : Nat) : ceil ((cout : Int) * e) kCubeSize = blocks (e * cout) 16 := by
    rw [← Int.natCast_mul,mul_comm]
    exact ceil_eq_blocks _ 16
  have shape (e : Nat) : [ceil groups e * blocks (e * c) c0 * h * w,(blocks (e * cout) 16 : Int),16,c0] =
      (groupShape h w c cout c0 groups e).map Int.ofNat := by
    rw [ceil_eq_blocks]
    simp [groupShape]
  have c0Some : ¬(c0 : Int) < 0 := by omega
  rw [transShapeToFzWithGroups,if_neg c0Some]
  dsimp only
  rw [kernels,if_neg (by omega),if_neg (by omega),eMultOf_eq coutPos c0Pos,blocked,rows,shape]

theorem groupShape_of_ok (c0Pos : 0 < c0) (several : 1 < groups) {dstShape : List Int}
    (derived : transShapeToFzWithGroups (groups * cout : Nat) c h w c0 groups = .ok dstShape) : 0 < c ∧ 0 < cout ∧
      isShapeValid ((packedShape h w c cout c0 groups).map Int.ofNat) ∧
      dstShape = (packedShape h w c cout c0 groups).map Int.ofNat := by
  have kernels := group_kernels cout several
  have c0Some : ¬(c0 : Int) < 0 := by omega
  have coutPos : 0 < cout := by
    apply Nat.pos_of_ne_zero
    rintro rfl
    rw [transShapeToFzWithGroups,if_neg c0Some] at derived
    dsimp only at derived
    rw [kernels,if_pos Int.natCast_zero] at derived
    cases derived
  have cPos : 0 < c := by
    apply Nat.pos_of_ne_zero
    rintro rfl
    rw [transShapeToFzWithGroups,if_neg c0Some] at derived
    dsimp only at derived
    rw [kernels,if_neg (by omega),if_pos (.inl Int.natCast_zero)] at derived
    cases derived
  rw [transShapeToFzWithGroups_eq cPos coutPos c0Pos several] at derived
  split at derived
  · next valid =>
    cases derived
    exact ⟨cPos,coutPos,valid,rfl⟩
  · cases derived

theorem transShapeFractalZ_groups (sizePos : 0 < size) (several : 1 < groups) (srcShape : List Int) (c0 : Int) :
    transShapeFractalZ .nchw groups srcShape size c0 =
      transShapeFrom (0,1,2,3) (fun n c h w c0 => transShapeToFzWithGroups n c h w c0 groups) srcShape c0 ∧
    transShapeFractalZ .hwcn groups srcShape size c0 =
      transShapeFrom (3,2,0,1) (fun n c h w c0 => transShapeToFzWithGroups n c h w c0 groups) srcShape c0 := by
  have sizeSome : ¬(size : Int) ≤ 0 := by omega
  have some : (1 : Int) < groups := by omega
  constructor
  all_goals
    rw [transShapeFractalZ,if_neg sizeSome]
    exact if_pos some

theorem transShapeFrom_inv {axes : Nat × Nat × Nat × Nat} {derive : Int → Int → Int → Int → Int → Except TransError (List Int)}
    {srcShape dstShape : List Int} {c0 : Int} (derived : transShapeFrom axes derive srcShape c0 = .ok dstShape) :
    checkShapeValid srcShape 4 ∧
      derive (dim srcShape axes.1) (dim srcShape axes.2.1) (dim srcShape axes.2.2.1) (dim srcShape axes.2.2.2) c0 =
        .ok dstShape := by
  rw [transShapeFrom] at derived
  split at derived
  · cases derived
  · next valid => exact ⟨not_not.mp valid,derived⟩

end Shape

theorem packGroups_eq (c0Pos : 0 < c0) (data : List UInt8) (h w c cout groups e size : Nat) :
    packGroups data h w c (groups * cout) cout c0 e size groups =
      if (groupAxes h w c cout c0 groups e).prod * size = 0 then .ok []
      else clearedBuffer ((groupAxes h w c cout c0 groups e).prod * size) >>=
        nest [groups,c,h,w,cout] (at5 .ok (groupStep data size h w c cout c0 groups e)) := by
  have columns : (ceil (e * c : Nat) c0).toNat * c0 / c0 = blocks (e * c) c0 := Nat.mul_div_cancel _ c0Pos
  have items : blocks groups e * blocks (e * c) c0 * h * w * (blocks (e * cout) 16 * 16) * c0 * size =
      (groupAxes h w c cout c0 groups e).prod * size := by
    simp only [groupAxes,List.prod_cons,List.prod_nil]
    ring
  unfold packGroups
  dsimp only
  rw [columns]
  change (if blocks groups e * blocks (e * c) c0 * h * w * (blocks (e * cout) 16 * 16) * c0 * size = 0 then _
    else clearedBuffer (blocks groups e * blocks (e * c) c0 * h * w * (blocks (e * cout) 16 * 16) * c0 * size) >>= _) = _
  rw [items]
  rfl

section Hwcn

variable (cPos : 0 < c) (coutPos : 0 < cout) (c0Pos : 0 < c0) (several : 1 < groups)
include cPos coutPos c0Pos several

variable (memory : Nat → UInt8)
include memory

variable {dstShape : List Int} (trans : transShapeFractalZ .hwcn groups [h,w,c,(groups * cout : Nat)] size c0 = .ok dstShape)
include trans

theorem transFormatFractalZ_hwcn (data : List UInt8) :
    transFormatFractalZ memory .hwcn groups ⟨data,[h,w,c,(groups * cout : Nat)],dstShape,size,c0⟩ =
      if (packedAxes h w c cout c0 groups).prod * size = 0 then .ok []
      else clearedBuffer ((packedAxes h w c cout c0 groups).prod * size) >>=
        nest [groups,c,h,w,cout] (at5 .ok (groupStep data size h w c cout c0 groups (packing c cout c0 groups))) := by
  have kernels : ((count [h,w,c,((groups * cout : Nat) : Int)] 3 : Int).tdiv groups).toNat = cout := by
    have := group_kernels cout several
    exact congrArg Int.toNat this
  have share : (eMultOf c cout c0 groups).toNat = packing c cout c0 groups := by
    rw [eMultOf_eq coutPos c0Pos,Int.toNat_natCast]
  have some : (1 : Int) < groups := by omega
  have none : ¬(c = 0 ∨ cout = 0) := by omega
  rw [transFormatFractalZ_of_ok memory .hwcn groups data trans]
  refine (if_pos some).trans ?_
  unfold transFormatHwcnToFzWithGroups
  dsimp only
  rw [kernels]
  refine (if_neg none).trans ?_
  change packGroups data h w c (groups * cout) cout c0 (eMultOf c cout c0 groups).toNat size groups = _
  rw [share,packGroups_eq c0Pos]

theorem hwcn_renders (sizePos : 0 < size) (fits : (packedAxes h w c cout c0 groups).prod * size ≤ securecMemMaxLen)
    (whole : data.length = [h,w,c,groups * cout].prod * size) : ∃ tiled,
    transFormatFractalZ memory .hwcn groups ⟨data,[h,w,c,(groups * cout : Nat)],dstShape,size,c0⟩ = .ok tiled ∧
      (groupLayout h w c cout c0 groups (packing c cout c0 groups) coutPos c0Pos
        (packing_pos cPos coutPos c0Pos (by omega))).Renders size data tiled := by
  have ePos := packing_pos cPos coutPos c0Pos (Nat.zero_lt_of_lt several)
  rw [transFormatFractalZ_hwcn cPos coutPos c0Pos several memory trans data]
  split
  · next none => exact ⟨[],rfl,Layout.Renders.nil ((Nat.mul_eq_zero.mp none).resolve_right (by omega))⟩
  · obtain ⟨tiled,result,renders⟩ := groupLoops_spec (h := h) (w := w) (c := c) coutPos c0Pos ePos whole
    refine ⟨tiled,?_,renders⟩
    rw [clearedBuffer,if_neg (by omega),ok_bind]
    exact result

theorem hwcn_too_long (long : securecMemMaxLen < (packedAxes h w c cout c0 groups).prod * size) (data : List UInt8) :
    transFormatFractalZ memory .hwcn groups ⟨data,[h,w,c,(groups * cout : Nat)],dstShape,size,c0⟩ =
      .error .memoryOperateFailed := by
  rw [transFormatFractalZ_hwcn cPos coutPos c0Pos several memory trans data,if_neg (by omega),clearedBuffer,if_pos long]
  rfl

end Hwcn

section Nchw

variable {n : Nat}

def fzLayout (n c h w c0 : Nat) (c0Pos : 0 < c0) : Layout [n,c,h,w] (fzAxes n c h w c0) where
  place := at4 [] fun a i x y => [i / c0,x,y,a,i % c0]
  inside := by
    simp only [fzAxes,forall_indices_cons,forall_indices_nil]
    intro a aBound i iBound x xBound y yBound
    have room : n ≤ blocks n 16 * 16 := le_blocks (by decide) (Nat.zero_lt_of_lt aBound)
    exact mem_indices_five (div_lt_blocks c0Pos iBound) xBound yBound (aBound.trans_le room) (Nat.mod_lt i c0Pos)
  injective := by
    simp only [forall_indices_cons,forall_indices_nil]
    intro a _ i _ x _ y _ a' _ i' _ x' _ y' _ same
    simp only [at4,List.cons.injEq,and_true] at same
    obtain ⟨block,rfl,rfl,rfl,rest⟩ := same
    rw [← Nat.div_add_mod' i c0,block,rest,Nat.div_add_mod']

theorem FzHolds.renders (c0Pos : 0 < c0) {tiled : List UInt8}
    (holds : FzHolds n c h w c0 size (fun a i x y => element size data (nchwPlace n c h w a i x y)) tiled) :
    (fzLayout n c h w c0 c0Pos).Renders size data tiled where
  length := holds.length
  elements := by
    simp only [forall_indices_cons,forall_indices_nil]
    intro a aBound i iBound x xBound y yBound
    exact holds.at_element c0Pos aBound iBound xBound yBound
  padding := by
    simp only [fzAxes,forall_indices_cons,forall_indices_nil]
    intro b bBound x xBound y yBound m mBound z zBound outside
    rw [← fzAxes,holds.elements b bBound x xBound y yBound m mBound z zBound]
    apply if_neg
    rintro ⟨channel,kernel⟩
    apply outside m kernel _ channel x xBound y yBound
    dsimp only [fzLayout,at4]
    rw [(tile_parts zBound).1,(tile_parts zBound).2]

end Nchw

end GraphEngine.Formats
