import GraphEngine.Formats.FractalZGrouped

/-! For which tensors the transfer with groups is right. A tensor with one element that is not zero tells the two orders of the
kernels apart. -/

namespace GraphEngine.Formats

open Lib.RowMajor Lib.ElementBuffer Lib.Placement Lib List
open Int (ofNat)

variable {h w c cout c0 groups size : Nat}

section Marked

variable {items k j : Nat}

def marked (items size k : Nat) : List UInt8 := overwrite (List.replicate (items * size) 0) (k * size) (List.replicate size 1)

theorem length_marked (size : Nat) (bound : k < items) : (marked items size k).length = items * size := by
  have fits : k * size + size ≤ items * size := cell_bound bound
  rw [marked,length_overwrite]
  · exact length_replicate
  · rwa [length_replicate,length_replicate]

theorem element_marked (size : Nat) (bound : k < items) (inside : j < items) : element size (marked items size k) j =
    if j = k then replicate size 1 else replicate size 0 := by
  rw [marked,element_overwrite length_replicate bound length_replicate,element_replicate 0 inside]

theorem ones_ne_zeros (sizePos : 0 < size) : replicate size (1 : UInt8) ≠ replicate size 0 := by
  intro same
  have := (replicate_inj.mp same).2.resolve_left (by omega)
  exact absurd this (by decide)

end Marked

structure SameTensor (n c h w size : Nat) (nchw hwcn : List UInt8) : Prop where
  nchwLength : nchw.length = [n,c,h,w].prod * size
  hwcnLength : hwcn.length = [h,w,c,n].prod * size
  elements : ∀ a < n, ∀ i < c, ∀ x < h, ∀ y < w,
    element size hwcn (hwcnPlace n c h w a i x y) = element size nchw (nchwPlace n c h w a i x y)

section Coincide

variable {n a i x y : Nat} (aBound : a < n) (iBound : i < c) (xBound : x < h) (yBound : y < w)
include aBound iBound xBound yBound

theorem marked_same (size : Nat) : SameTensor n c h w size (marked [n,c,h,w].prod size (nchwPlace n c h w a i x y))
    (marked [h,w,c,n].prod size (hwcnPlace n c h w a i x y)) := by
  have nchwMember := mem_indices_four aBound iBound xBound yBound
  have hwcnMember := mem_indices_four xBound yBound iBound aBound
  refine ⟨length_marked size (offset_lt nchwMember),length_marked size (offset_lt hwcnMember),?_⟩
  intro a' aBound' i' iBound' x' xBound' y' yBound'
  have nchwMember' := mem_indices_four aBound' iBound' xBound' yBound'
  have hwcnMember' := mem_indices_four xBound' yBound' iBound' aBound'
  rw [hwcnPlace,hwcnPlace,nchwPlace,nchwPlace,element_marked size (offset_lt hwcnMember) (offset_lt hwcnMember'),
    element_marked size (offset_lt nchwMember) (offset_lt nchwMember')]
  congr 1
  apply propext
  constructor
  · intro same
    cases offset_injective hwcnMember' hwcnMember same
    rfl
  · intro same
    cases offset_injective nchwMember' nchwMember same
    rfl

theorem marked_position (sizePos : 0 < size) {tiled : List UInt8} (holds : FzHolds n c h w c0 size
      (fun a' i' x' y' => element size (marked [n,c,h,w].prod size (nchwPlace n c h w a i x y)) (nchwPlace n c h w a' i' x' y'))
      tiled) {k : Nat} (inside : k < (fzAxes n c h w c0).prod) (ones : element size tiled k = replicate size 1) :
    k = offset (fzAxes n c h w c0) [i / c0,x,y,a,i % c0] := by
  have member := mem_indices_four aBound iBound xBound yBound
  have all : ∀ index ∈ indices (fzAxes n c h w c0),
      element size tiled (offset (fzAxes n c h w c0) index) = replicate size 1 →
        offset (fzAxes n c h w c0) index = offset (fzAxes n c h w c0) [i / c0,x,y,a,i % c0] := by
    simp only [fzAxes,forall_indices_cons,forall_indices_nil]
    intro b bBound x' xBound' y' yBound' m mBound z zBound ones
    rw [← fzAxes,holds.elements b bBound x' xBound' y' yBound' m mBound z zBound] at ones
    split at ones
    · next there =>
      have member' := mem_indices_four there.2 there.1 xBound' yBound'
      rw [nchwPlace,nchwPlace,element_marked size (offset_lt member) (offset_lt member')] at ones
      split at ones
      · next same =>
        cases offset_injective member' member same
        rw [(tile_parts zBound).1,(tile_parts zBound).2]
      · exact absurd ones.symm (ones_ne_zeros sizePos)
    · exact absurd ones.symm (ones_ne_zeros sizePos)
  obtain ⟨index,there,rfl⟩ := exists_index inside
  exact all index there ones

end Coincide

section Arithmetic

variable (hPos : 0 < h) (wPos : 0 < w) (cPos : 0 < c) (coutPos : 0 < cout) (c0Pos : 0 < c0) (several : 1 < groups)
include hPos wPos cPos coutPos c0Pos several

/-- The first kernel of the second group is at the same place with and without groups only if the groups fill whole blocks of
one position. -/
theorem second_group_coincides (ePos : 0 < packing c cout c0 groups) (same : offset (packedAxes h w c cout c0 groups)
      ((groupLayout h w c cout c0 groups (packing c cout c0 groups) coutPos c0Pos ePos).place [0,0,0,cout]) = cout * c0) :
    h * w = 1 ∧ c = c0 ∧ 16 ∣ cout := by
  have own : cout / cout = 1 := Nat.div_self coutPos
  simp only [groupLayout,at4,groupAxes,offset,prod_cons,prod_nil,own,Nat.mod_self] at same
  by_cases single : packing c cout c0 groups = 1
  · obtain ⟨channels,kernels⟩ := (packing_eq_one cPos coutPos several).mp single
    rw [single] at same
    simp only [Nat.div_one,Nat.mod_one,one_mul,zero_mul,mul_one,add_zero,Nat.zero_div,Nat.zero_mod] at same
    have rows : cout ≤ blocks cout 16 * 16 := le_blocks (by decide) coutPos
    have columns : 0 < blocks c c0 := Nat.pos_of_ne_zero fun none => by simp [(blocks_eq_zero c0Pos).mp none] at cPos
    have area : 0 < h * w := mul_pos hPos wPos
    have filled : blocks c c0 * (h * w) * (blocks cout 16 * 16) = cout := by
      apply Nat.eq_of_mul_eq_mul_right c0Pos
      rw [← same]
      ring
    have one : blocks c c0 * (h * w) = 1 := by
      have few : blocks c c0 * (h * w) * (blocks cout 16 * 16) ≤ 1 * (blocks cout 16 * 16) := by omega
      have := Nat.le_of_mul_le_mul_right few (by omega)
      have := mul_pos columns area
      omega
    have blockOne : blocks c c0 = 1 := Nat.dvd_one.mp (Dvd.intro _ one)
    have areaOne : h * w = 1 := Nat.dvd_one.mp (Dvd.intro_left _ one)
    have fits := le_blocks c0Pos cPos
    rw [blockOne,one_mul] at fits
    exact ⟨areaOne,le_antisymm fits (Nat.le_of_dvd cPos channels),kernels⟩
  · have share : 1 % packing c cout c0 groups = 1 := Nat.mod_eq_of_lt (by omega)
    have set : 1 / packing c cout c0 groups = 0 := Nat.div_eq_of_lt (by omega)
    rw [share,set] at same
    simp only [one_mul,zero_mul,mul_one,add_zero,zero_add] at same
    have rows : 0 < blocks (packing c cout c0 groups * cout) 16 * 16 :=
      lt_of_lt_of_le (mul_pos ePos coutPos) (le_blocks (by decide) (mul_pos ePos coutPos))
    have spread : 0 < h * (w * (blocks (packing c cout c0 groups * cout) 16 * 16 * c0)) :=
      mul_pos hPos (mul_pos wPos (mul_pos rows c0Pos))
    have noBlock : c / c0 * (h * (w * (blocks (packing c cout c0 groups * cout) 16 * 16 * c0))) = 0 := by omega
    have block := (Nat.mul_eq_zero.mp noBlock).resolve_right (by omega)
    have whole := Nat.div_add_mod' c c0
    rw [block,zero_mul] at whole
    omega

end Arithmetic

/-- The output has the size of the derived shape, every element of the source at a place of its own, and zeros elsewhere. -/
def PlacesAll (memory : Nat → UInt8) (format : Format) (groups : Nat) (srcShape : List Nat) (dstShape : List Int)
    (size c0 : Nat) : Prop :=
  ∃ (axes : List Nat) (layout : Layout srcShape axes), (axes.prod : Int) = getItemNumByShape dstShape ∧
    ∀ data, data.length = srcShape.prod * size → ∃ tiled,
      transFormatFractalZ memory format groups ⟨data,srcShape.map Int.ofNat,dstShape,size,c0⟩ = .ok tiled ∧
      (tiled.length : Int) = getItemNumByShape dstShape * size ∧ layout.Renders size data tiled

def RenderingsAgree (memory memory' : Nat → UInt8) (groups n c h w : Nat) (dstShape : List Int) (size c0 : Nat) : Prop :=
  transShapeFractalZ .hwcn groups ([h,w,c,n].map Int.ofNat) size c0 = .ok dstShape → ∀ nchw hwcn,
    SameTensor n c h w size nchw hwcn → ∀ tiled,
      transFormatFractalZ memory .nchw groups ⟨nchw,[n,c,h,w].map Int.ofNat,dstShape,size,c0⟩ = .ok tiled →
      transFormatFractalZ memory' .hwcn groups ⟨hwcn,[h,w,c,n].map Int.ofNat,dstShape,size,c0⟩ = .ok tiled

theorem items_group (h w c cout c0 groups e : Nat) : getItemNumByShape ((groupShape h w c cout c0 groups e).map ofNat) =
    ((groupAxes h w c cout c0 groups e).prod : Nat) := by
  rw [items_cast]
  simp only [groupShape,groupAxes,prod_cons,prod_nil]
  congr 1
  ring

section Exact

variable (memory memory' : Nat → UInt8) (cPos : 0 < c) (coutPos : 0 < cout) (c0Pos : 0 < c0) (several : 1 < groups)
  (sizePos : 0 < size)
include cPos coutPos c0Pos several sizePos

theorem hwcn_placesAll_iff (trans : transShapeFractalZ .hwcn groups ([h,w,c,groups * cout].map ofNat) size c0 =
      .ok ((packedShape h w c cout c0 groups).map ofNat)) : PlacesAll memory .hwcn groups [h,w,c,groups * cout]
        ((packedShape h w c cout c0 groups).map ofNat) size c0 ↔
      (packedAxes h w c cout c0 groups).prod * size ≤ securecMemMaxLen := by
  constructor
  · rintro ⟨axes,layout,_,outputs⟩
    by_contra long
    obtain ⟨tiled,result,_⟩ := outputs (replicate ([h,w,c,groups * cout].prod * size) 0) length_replicate
    cases result.symm.trans (hwcn_too_long cPos coutPos c0Pos several memory trans (by omega) _)
  · intro fits
    refine ⟨_,groupLayout h w c cout c0 groups (packing c cout c0 groups) coutPos c0Pos
      (packing_pos cPos coutPos c0Pos (by omega)),(items_group _ _ _ _ _ _ _).symm,?_⟩
    intro data whole
    obtain ⟨tiled,result,renders⟩ := hwcn_renders cPos coutPos c0Pos several memory trans sizePos fits whole
    refine ⟨tiled,result,?_,renders⟩
    rw [items_group,renders.length]
    push_cast
    rfl

theorem full_of_agree (hPos : 0 < h) (wPos : 0 < w) (sizeFits : size ≤ securecMemMaxLen)
    (hwcnTrans : transShapeFractalZ .hwcn groups ([h,w,c,groups * cout].map ofNat) size c0 =
      .ok ((packedShape h w c cout c0 groups).map ofNat)) (places : PlacesAll memory .nchw groups [groups * cout,c,h,w]
      ((packedShape h w c cout c0 groups).map ofNat) size c0)
    (agree : RenderingsAgree memory memory' groups (groups * cout) c h w
      ((packedShape h w c cout c0 groups).map ofNat) size c0)
    (nchwTrans : transShapeFractalZ .nchw groups ([groups * cout,c,h,w].map ofNat) size c0 =
      .ok ((packedShape h w c cout c0 groups).map ofNat)) : h * w = 1 ∧ c = c0 ∧ 16 ∣ cout ∧
      (packedAxes h w c cout c0 groups).prod * size ≤ securecMemMaxLen := by
  -- the tensor whose only element is the first of the second group
  have kernel : cout < groups * cout := by
    have := Nat.mul_lt_mul_of_pos_right several coutPos
    omega
  have same := marked_same kernel cPos hPos wPos size
  obtain ⟨axes,layout,_,outputs⟩ := places
  obtain ⟨tiled,result,length,_⟩ := outputs _ same.nchwLength
  have hwcnResult := agree hwcnTrans _ _ same tiled result
  have ePos := packing_pos cPos coutPos c0Pos (Nat.zero_lt_of_lt several)
  have fits : (packedAxes h w c cout c0 groups).prod * size ≤ securecMemMaxLen := by
    by_contra long
    cases hwcnResult.symm.trans (hwcn_too_long cPos coutPos c0Pos several memory' hwcnTrans (by omega) _)
  obtain ⟨tiled',again,renders⟩ := hwcn_renders cPos coutPos c0Pos several memory' hwcnTrans sizePos fits same.hwcnLength
  cases hwcnResult.symm.trans again
  have plain : ∃ tiled, transFormatFromNchwToFz memory ⟨marked [groups * cout,c,h,w].prod size
        (nchwPlace (groups * cout) c h w cout 0 0 0),[groups * cout,c,h,w].map ofNat,
        (packedShape h w c cout c0 groups).map ofNat,size,c0⟩ = .ok tiled ∧
      FzHolds (groups * cout) c h w c0 size _ tiled := transFormatFromNchwToFz_spec sizePos sizeFits memory same.nchwLength _
  obtain ⟨tiled',again,holds⟩ := plain
  cases (result.symm.trans (transFormatFractalZ_of_ok memory .nchw groups _ nchwTrans)).trans again
  have member : [0,0,0,cout] ∈ indices [h,w,c,groups * cout] := mem_indices_four hPos wPos cPos kernel
  have ones := renders.elements _ member
  rw [hwcnPlace,element_marked size (offset_lt member) (offset_lt member)] at ones
  have sizes : (packedAxes h w c cout c0 groups).prod = (fzAxes (groups * cout) c h w c0).prod :=
    Nat.eq_of_mul_eq_mul_right sizePos (renders.length.symm.trans holds.length)
  have inside := offset_lt ((groupLayout h w c cout c0 groups (packing c cout c0 groups) coutPos c0Pos ePos).inside _ member)
  rw [sizes] at inside
  have position := marked_position kernel cPos hPos wPos sizePos holds inside (ones.trans (if_pos rfl))
  have place : offset (fzAxes (groups * cout) c h w c0) [0 / c0,0,0,cout,0 % c0] = cout * c0 := by
    simp [fzAxes,offset]
  obtain ⟨area,channels,rows⟩ :=
    second_group_coincides hPos wPos cPos coutPos c0Pos several ePos (position.trans place)
  exact ⟨area,channels,rows,fits⟩

omit cPos coutPos several in
theorem nchw_placesAll (sizeFits : size ≤ securecMemMaxLen)
    (sizes : (fzAxes (groups * cout) c h w c0).prod = (packedAxes h w c cout c0 groups).prod)
    (nchwTrans : transShapeFractalZ .nchw groups ([groups * cout,c,h,w].map ofNat) size c0 =
      .ok ((packedShape h w c cout c0 groups).map ofNat)) : PlacesAll memory .nchw groups [groups * cout,c,h,w]
      ((packedShape h w c cout c0 groups).map ofNat) size c0 := by
  refine ⟨_,fzLayout (groups * cout) c h w c0 c0Pos,by rw [items_group,sizes],?_⟩
  intro data whole
  obtain ⟨tiled,result,holds⟩ := transFormatFromNchwToFz_spec sizePos sizeFits memory whole
    ((packedShape h w c cout c0 groups).map ofNat)
  refine ⟨tiled,(transFormatFractalZ_of_ok memory .nchw groups data nchwTrans).trans result,?_,holds.renders c0Pos⟩
  rw [items_group,holds.length,sizes]
  push_cast
  rfl

end Exact

section Full

theorem blocks_mul (q : Nat) (c0Pos : 0 < c0) : blocks (q * c0) c0 = q := by
  rcases Nat.eq_zero_or_pos q with rfl | qPos
  · rw [zero_mul,blocks_zero]
  · obtain ⟨p,rfl⟩ : ∃ p, q = p + 1 := ⟨q - 1,by omega⟩
    have : (p + 1) * c0 - 1 = c0 * p + (c0 - 1) := by
      rw [Nat.succ_mul,mul_comm]
      omega
    rw [blocks_eq (mul_pos (Nat.succ_pos p) c0Pos) c0Pos,this,Nat.mul_add_div c0Pos,Nat.div_eq_of_lt (by omega),
      add_zero]

theorem full_axes (groups : Nat) (c0Pos : 0 < c0) (rows : 16 ∣ cout) :
    groupAxes 1 1 c0 cout c0 groups 1 = [groups,1,1,1,cout,c0] ∧
    fzAxes (groups * cout) c0 1 1 c0 = [1,1,1,groups * cout,c0] := by
  have sets : blocks groups 1 = groups := by
    have := blocks_mul groups one_pos
    rwa [mul_one] at this
  have columns : blocks c0 c0 = 1 := by
    have := blocks_mul 1 c0Pos
    rwa [one_mul] at this
  have whole : ∀ k, 16 ∣ k → blocks k 16 * 16 = k := by
    rintro k ⟨q,rfl⟩
    rw [mul_comm 16 q,blocks_mul q (by decide)]
  rw [groupAxes,fzAxes,one_mul,one_mul,sets,columns,whole cout rows,whole _ (Dvd.dvd.mul_left rows groups)]
  exact ⟨rfl,rfl⟩

theorem full_same (coutPos : 0 < cout) (c0Pos : 0 < c0) (rows : 16 ∣ cout) {nchw hwcn tiled tiled' : List UInt8}
    (same : SameTensor (groups * cout) c0 1 1 size nchw hwcn) (holds : FzHolds (groups * cout) c0 1 1 c0 size
      (fun a i x y => element size nchw (nchwPlace (groups * cout) c0 1 1 a i x y)) tiled)
    (renders : (groupLayout 1 1 c0 cout c0 groups 1 coutPos c0Pos one_pos).Renders size hwcn tiled') : tiled' = tiled := by
  obtain ⟨groupEq,plainEq⟩ := full_axes groups c0Pos rows
  have length := holds.length
  have length' := renders.length
  rw [plainEq] at length
  rw [groupEq] at length'
  have items : [groups,1,1,1,cout,c0].prod = [1,1,1,groups * cout,c0].prod := by
    simp only [prod_cons,prod_nil]
    ring
  rw [items] at length'
  apply ext_elements length' length
  intro k bound
  have total : k < groups * cout * c0 := by simpa using bound
  have aBound : k / c0 < groups * cout := Nat.div_lt_of_lt_mul (by rwa [mul_comm])
  have zBound := Nat.mod_lt k c0Pos
  have whole := Nat.div_add_mod' k c0
  have kernel := Nat.div_add_mod' (k / c0) cout
  have room : groups * cout ≤ blocks (groups * cout) 16 * 16 :=
    le_blocks (by decide) (Nat.zero_lt_of_lt aBound)
  have columns : 0 < blocks c0 c0 := by
    have := blocks_mul 1 c0Pos
    rw [one_mul] at this
    omega
  have first := holds.elements 0 columns 0 one_pos 0 one_pos (k / c0) (by omega) (k % c0) zBound
  have place : offset (fzAxes (groups * cout) c0 1 1 c0) [0,0,0,k / c0,k % c0] = k := by
    rw [plainEq]
    simp [offset,whole]
  rw [place,if_pos (by omega)] at first
  have second := renders.elements [0,0,k % c0,k / c0] (mem_indices_four one_pos one_pos zBound aBound)
  have spot : (groupLayout 1 1 c0 cout c0 groups 1 coutPos c0Pos one_pos).place [0,0,k % c0,k / c0] =
      [k / c0 / cout,0,0,0,k / c0 % cout,k % c0] := by
    simp [groupLayout,at4,Nat.mod_one,Nat.div_eq_of_lt zBound]
  have place' : offset (groupAxes 1 1 c0 cout c0 groups 1) [k / c0 / cout,0,0,0,k / c0 % cout,k % c0] = k := by
    rw [groupEq]
    simp only [offset,prod_cons,prod_nil]
    calc k / c0 / cout * (1 * (1 * (1 * (cout * (c0 * 1))))) + (0 * (1 * (1 * (cout * (c0 * 1)))) +
          (0 * (1 * (cout * (c0 * 1))) + (0 * (cout * (c0 * 1)) + (k / c0 % cout * (c0 * 1) + (k % c0 * 1 + 0)))))
        = (k / c0 / cout * cout + k / c0 % cout) * c0 + k % c0 := by ring
      _ = k := by rw [kernel,whole]
  rw [spot,place'] at second
  rw [first,second,zero_mul,zero_add]
  exact same.elements (k / c0) aBound (k % c0) zBound 0 one_pos 0 one_pos

end Full

section Derived

variable (c0Pos : 0 < c0) (several : 1 < groups) (sizePos : 0 < size) {dstShape : List Int}
include c0Pos several sizePos

theorem nchw_derived (trans : transShapeFractalZ .nchw groups ([groups * cout,c,h,w].map ofNat) size c0 = .ok dstShape) :
    0 < c ∧ 0 < cout ∧ dstShape = (packedShape h w c cout c0 groups).map ofNat := by
  rw [(transShapeFractalZ_groups sizePos several _ _).1] at trans
  obtain ⟨cPos,coutPos,_,shape⟩ := groupShape_of_ok c0Pos several (transShapeFrom_inv trans).2
  exact ⟨cPos,coutPos,shape⟩

theorem hwcn_of_nchw (hPos : 0 < h) (wPos : 0 < w)
    (trans : transShapeFractalZ .nchw groups ([groups * cout,c,h,w].map ofNat) size c0 = .ok dstShape) :
    transShapeFractalZ .hwcn groups ([h,w,c,groups * cout].map ofNat) size c0 = .ok dstShape := by
  obtain ⟨cPos,coutPos,_⟩ := nchw_derived c0Pos several sizePos trans
  have kernels : 0 < groups * cout := mul_pos (by omega) coutPos
  rw [(transShapeFractalZ_groups sizePos several _ _).1] at trans
  obtain ⟨valid,derived⟩ := transShapeFrom_inv trans
  have limit := (isShapeValid_iff [groups * cout,c,h,w] (by simp [*]) (by simp)).mp valid
  have items : [h,w,c,groups * cout].prod = [groups * cout,c,h,w].prod := by
    simp only [prod_cons,prod_nil]
    ring
  rw [← items] at limit
  have hwcnValid : checkShapeValid ([h,w,c,groups * cout].map ofNat) 4 :=
    checkShapeValid_of_le [h,w,c,groups * cout] (by simp [*]) (by simp) limit
  rw [(transShapeFractalZ_groups sizePos several _ _).2,transShapeFrom,if_neg (not_not.mpr hwcnValid)]
  exact derived

end Derived

section Agree

variable (memory memory' : Nat → UInt8) (cPos : 0 < c) (coutPos : 0 < cout) (c0Pos : 0 < c0) (several : 1 < groups)
  (sizePos : 0 < size) (sizeFits : size ≤ securecMemMaxLen)
include coutPos c0Pos several sizePos sizeFits

include cPos in
theorem agree_of_empty (none : h * w = 0)
    (nchwTrans : transShapeFractalZ .nchw groups ([groups * cout,c,h,w].map ofNat) size c0 =
      .ok ((packedShape h w c cout c0 groups).map ofNat)) : PlacesAll memory .nchw groups [groups * cout,c,h,w]
        ((packedShape h w c cout c0 groups).map ofNat) size c0 ∧
      RenderingsAgree memory memory' groups (groups * cout) c h w ((packedShape h w c cout c0 groups).map ofNat) size c0 := by
  have noItems : (fzAxes (groups * cout) c h w c0).prod = 0 := by
    rcases Nat.mul_eq_zero.mp none with zero | zero
    all_goals simp [fzAxes,zero]
  have noPlaces : (packedAxes h w c cout c0 groups).prod = 0 := by
    rcases Nat.mul_eq_zero.mp none with zero | zero
    all_goals simp [packedAxes,groupAxes,zero]
  refine ⟨nchw_placesAll memory c0Pos sizePos sizeFits (noItems.trans noPlaces.symm) nchwTrans,?_⟩
  intro hwcnTrans nchw hwcn same tiled result
  obtain ⟨tiled',again,holds⟩ := transFormatFromNchwToFz_spec sizePos sizeFits memory same.nchwLength
    ((packedShape h w c cout c0 groups).map ofNat)
  cases (result.symm.trans (transFormatFractalZ_of_ok memory .nchw groups nchw nchwTrans)).trans again
  have empty := holds.length
  rw [noItems,zero_mul] at empty
  rw [length_eq_zero_iff.mp empty]
  refine (transFormatFractalZ_hwcn cPos coutPos c0Pos several memory' hwcnTrans hwcn).trans (if_pos ?_)
  rw [noPlaces,zero_mul]

theorem agree_of_full (rows : 16 ∣ cout) (fits : (packedAxes 1 1 c0 cout c0 groups).prod * size ≤ securecMemMaxLen)
    (nchwTrans : transShapeFractalZ .nchw groups ([groups * cout,c0,1,1].map ofNat) size c0 =
      .ok ((packedShape 1 1 c0 cout c0 groups).map ofNat)) : PlacesAll memory .nchw groups [groups * cout,c0,1,1]
        ((packedShape 1 1 c0 cout c0 groups).map ofNat) size c0 ∧
      RenderingsAgree memory memory' groups (groups * cout) c0 1 1
        ((packedShape 1 1 c0 cout c0 groups).map ofNat) size c0 := by
  have single : packing c0 cout c0 groups = 1 := (packing_eq_one c0Pos coutPos several).mpr ⟨Nat.dvd_refl c0,rows⟩
  obtain ⟨groupEq,plainEq⟩ := full_axes groups c0Pos rows
  have sizes : (fzAxes (groups * cout) c0 1 1 c0).prod =
      (packedAxes 1 1 c0 cout c0 groups).prod := by
    rw [packedAxes,single,groupEq,plainEq]
    simp only [prod_cons,prod_nil]
    ring
  refine ⟨nchw_placesAll memory c0Pos sizePos sizeFits sizes nchwTrans,?_⟩
  intro hwcnTrans nchw hwcn same tiled result
  obtain ⟨tiled',again,holds⟩ := transFormatFromNchwToFz_spec sizePos sizeFits memory same.nchwLength
    ((packedShape 1 1 c0 cout c0 groups).map ofNat)
  cases (result.symm.trans (transFormatFractalZ_of_ok memory .nchw groups nchw nchwTrans)).trans again
  obtain ⟨other,hwcnResult,renders⟩ :=
    hwcn_renders c0Pos coutPos c0Pos several memory' hwcnTrans sizePos fits same.hwcnLength
  have equal : other = tiled := by
    revert renders
    generalize packing_pos c0Pos coutPos c0Pos (Nat.zero_lt_of_lt several) = ePos
    generalize packing c0 cout c0 groups = e at single ePos
    subst single
    exact full_same coutPos c0Pos rows same holds
  exact equal ▸ hwcnResult

end Agree

/-- For HWCN the transfer with groups is right unless the output is longer than what one call clears; for NCHW only without
positions, or with one position, groups of C0 channels and of whole blocks of kernels. -/
theorem grouped_transfer_iff (memory memory' : Nat → UInt8) {n c h w c0 size groups : Nat} (several : 1 < groups)
    (divides : groups ∣ n) (c0Pos : 0 < c0) (sizePos : 0 < size) (sizeFits : size ≤ securecMemMaxLen) (dstShape : List Int) :
    (transShapeFractalZ .hwcn groups ([h,w,c,n].map Int.ofNat) size c0 = .ok dstShape →
      (PlacesAll memory .hwcn groups [h,w,c,n] dstShape size c0 ↔ getItemNumByShape dstShape * size ≤ securecMemMaxLen)) ∧
    (transShapeFractalZ .nchw groups ([n,c,h,w].map Int.ofNat) size c0 = .ok dstShape →
      (PlacesAll memory .nchw groups [n,c,h,w] dstShape size c0 ∧
          RenderingsAgree memory memory' groups n c h w dstShape size c0 ↔
        h * w = 0 ∨ h * w = 1 ∧ c = c0 ∧ 16 ∣ n / groups ∧ getItemNumByShape dstShape * size ≤ securecMemMaxLen)) := by
  obtain ⟨cout,rfl⟩ := divides
  have bytes : ∀ items : Nat, (items : Int) * size ≤ securecMemMaxLen ↔ items * size ≤ securecMemMaxLen := by
    intro items
    rw [← Int.natCast_mul]
    omega
  rw [Nat.mul_div_cancel_left cout (by omega)]
  constructor
  · intro trans
    have derived := trans
    rw [(transShapeFractalZ_groups sizePos several _ _).2] at derived
    obtain ⟨cPos,coutPos,_,rfl⟩ := groupShape_of_ok c0Pos several (transShapeFrom_inv derived).2
    rw [hwcn_placesAll_iff memory cPos coutPos c0Pos several sizePos trans,items_group,bytes]
  · intro trans
    obtain ⟨cPos,coutPos,rfl⟩ := nchw_derived c0Pos several sizePos trans
    rw [items_group,bytes]
    constructor
    · rintro ⟨places,agree⟩
      by_cases none : h * w = 0
      · exact .inl none
      · have hPos : 0 < h := Nat.pos_of_ne_zero fun zero => none (by rw [zero,Nat.zero_mul])
        have wPos : 0 < w := Nat.pos_of_ne_zero fun zero => none (by rw [zero,Nat.mul_zero])
        exact .inr (full_of_agree memory memory' cPos coutPos c0Pos several sizePos hPos wPos sizeFits
          (hwcn_of_nchw c0Pos several sizePos hPos wPos trans) places agree trans)
    · rintro (none | ⟨area,rfl,rows,fits⟩)
      · exact agree_of_empty memory memory' cPos coutPos c0Pos several sizePos sizeFits none trans
      · have hOne : h = 1 := Nat.dvd_one.mp (Dvd.intro _ area)
        have wOne : w = 1 := Nat.dvd_one.mp (Dvd.intro_left _ area)
        subst hOne wOne
        exact agree_of_full memory memory' coutPos c0Pos several sizePos sizeFits rows fits trans

/-- Two groups of one kernel each, as HWCN. -/
theorem two_groups_hwcn : PlacesAll (fun _ => 7) .hwcn 2 [1,1,1,2] [2,1,16,1] 1 1 :=
  ((grouped_transfer_iff (fun _ => 7) (fun _ => 8) (by decide) (by decide) (by decide) (by decide) (by decide)
    [2,1,16,1]).1 (by decide)).mpr (by decide)

/-- The same as NCHW: the shape has thirty-two elements, the output sixteen. -/
theorem two_groups_nchw :
    transShapeFractalZ .nchw 2 [2,1,1,1] 1 1 = .ok [2,1,16,1] ∧
    transFormatFractalZ (fun _ => 7) .nchw 2 ⟨[5,6],[2,1,1,1],[2,1,16,1],1,1⟩ = .ok [5,6,0,0,0,0,0,0,0,0,0,0,0,0,0,0] := by
  decide

end GraphEngine.Formats
