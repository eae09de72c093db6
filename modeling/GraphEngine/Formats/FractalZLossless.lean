import GraphEngine.Lib.Outcome
import GraphEngine.Formats.FractalZLayout

/-! NCHW, NHWC and HWCN renderings of one tensor have the same bytes in FRACTAL_Z, and NCHW and HWCN come back from it. The
checks let exactly the tensors through whose padded size is within the limit. -/

namespace GraphEngine.Formats

open Lib.RowMajor Lib.ElementBuffer Lib List

variable {n c h w c0 size : Nat} {data : List UInt8}

def hwcnPlace (n c h w : Nat) (a i x y : Nat) : Nat := offset [h,w,c,n] [x,y,i,a]

section Transfers

variable (positive : 0 < size) (small : size ≤ securecMemMaxLen)
include positive small

theorem transFormatHwcnToFz_spec (memory : Nat → UInt8) (whole : data.length = [h,w,c,n].prod * size) : ∃ tiled,
    transFormatHwcnToFz memory ⟨data,[h,w,c,n],fzShape n c h w c0,size,c0⟩ = .ok tiled ∧
      FzHolds n c h w c0 size (fun a i x y => element size data (hwcnPlace n c h w a i x y)) tiled := by
  have inside : ∀ a < n, ∀ i < c, ∀ x < h, ∀ y < w, hwcnPlace n c h w a i x y < [h,w,c,n].prod := by
    intro a aBound i iBound x xBound y yBound
    exact offset_lt (mem_indices_four xBound yBound iBound aBound)
  have source : hwcnPlace n c h w = fun a i x y => x * (w * (c * n)) + y * (c * n) + i * n + a := by
    funext a i x y
    simp only [hwcnPlace,offset,prod_cons,prod_nil]
    ring
  rw [source] at inside ⊢
  exact fzBlockLoops_spec positive small whole memory inside [h,w,c,n]

theorem transFormatNhwcToFz_spec (memory : Nat → UInt8) (whole : data.length = [n,h,w,c].prod * size) : ∃ tiled,
    transFormatNhwcToFz memory ⟨data,[n,h,w,c],fzShape n c h w c0,size,c0⟩ = .ok tiled ∧
      FzHolds n c h w c0 size (fun a i x y => element size data (nhwcPlace n c h w a i x y)) tiled := by
  have inside := nhwcPlace_lt n c h w
  have source : nhwcPlace n c h w = fun a i x y => a * (h * w * c) + x * (w * c) + y * c + i := by
    funext a i x y
    simp only [nhwcPlace,offset,prod_cons,prod_nil]
    ring
  rw [source] at inside ⊢
  exact fzBlockLoops_spec positive small whole memory inside [n,h,w,c]

variable (c0Pos : 0 < c0) (tiledWhole : data.length = (fzAxes n c h w c0).prod * size)
include c0Pos

section
omit positive small

theorem fzPlace (a i x y : Nat) : offset (fzAxes n c h w c0) [i / c0,x,y,a,i % c0] =
    i / c0 * (h * (w * (16 * blocks n 16 * c0))) + x * (w * (16 * blocks n 16 * c0)) + y * (16 * blocks n 16 * c0) + a * c0 +
      i % c0 ∧ (a < n → i < c → x < h → y < w →
      offset (fzAxes n c h w c0) [i / c0,x,y,a,i % c0] < (fzAxes n c h w c0).prod) := by
  constructor
  · simp only [fzAxes,offset,prod_cons,prod_nil]
    ring
  · intro aBound iBound xBound yBound
    have room : n ≤ blocks n 16 * 16 := le_blocks (by decide) (Nat.zero_lt_of_lt aBound)
    exact offset_lt (mem_indices_five (div_lt_blocks c0Pos iBound) xBound yBound (by omega) (Nat.mod_lt i c0Pos))

theorem prod_fz_eq_zero : (fzAxes n c h w c0).prod = 0 ↔ [n,c,h,w].prod = 0 := by
  have sixteen : (0 : Nat) < 16 := by decide
  simp only [fzAxes,prod_cons,prod_nil,mul_eq_zero,blocks_eq_zero c0Pos,blocks_eq_zero sixteen]
  omega

theorem prod_fz_hwcn_eq_zero : (fzAxes n c h w c0).prod = 0 ↔ [h,w,c,n].prod = 0 := by
  rw [prod_fz_eq_zero c0Pos]
  simp only [prod_cons,prod_nil,mul_eq_zero]
  tauto

end

include tiledWhole

theorem convertFracZNchw_spec (memory : Nat → UInt8) :
    ∃ result, convertFracZNchw memory ⟨data,fzShape n c h w c0,[n,c,h,w],size,c0⟩ = .ok result ∧
      result.length = [n,c,h,w].prod * size ∧ ∀ a < n, ∀ i < c, ∀ x < h, ∀ y < w,
        element size result (nchwPlace n c h w a i x y) =
          element size data (offset (fzAxes n c h w c0) [i / c0,x,y,a,i % c0]) := by
  apply convertBack_spec (items_fz n c h w c0) rfl rfl positive small (prod_fz_eq_zero c0Pos).symm tiledWhole
    (fun a i x y => a * (c * (h * w)) + i * (h * w) + x * w + y) _ _ (fun a i x y => (fzPlace c0Pos a i x y).1.symm)
    (fun a aBound i iBound x xBound y yBound => (fzPlace c0Pos a i x y).2 aBound iBound xBound yBound) memory rfl
  intro a i x y
  simp only [offset,prod_cons,prod_nil]
  ring

theorem convertFracZHwcn_spec (memory : Nat → UInt8) :
    ∃ result, convertFracZHwcn memory ⟨data,fzShape n c h w c0,[h,w,c,n],size,c0⟩ = .ok result ∧
      result.length = [h,w,c,n].prod * size ∧ ∀ x < h, ∀ y < w, ∀ i < c, ∀ a < n,
        element size result (hwcnPlace n c h w a i x y) =
          element size data (offset (fzAxes n c h w c0) [i / c0,x,y,a,i % c0]) := by
  apply convertBack_spec (items_fz n c h w c0) rfl rfl positive small (prod_fz_hwcn_eq_zero c0Pos).symm tiledWhole
    (fun x y i a => x * (w * (c * n)) + y * (c * n) + i * n + a) _ _ (fun x y i a => (fzPlace c0Pos a i x y).1.symm)
    (fun x xBound y yBound i iBound a aBound => (fzPlace c0Pos a i x y).2 aBound iBound xBound yBound) memory rfl
  intro x y i a
  simp only [offset,prod_cons,prod_nil]
  ring

end Transfers

section Checks

variable (nPos : 0 < n) (cPos : 0 < c) (hPos : 0 < h) (wPos : 0 < w) (c0Pos : 0 < c0)
include nPos cPos hPos wPos c0Pos

theorem fzShape_valid_iff : isShapeValid (fzShape n c h w c0) ↔ ((fzAxes n c h w c0).prod : Nat) ≤ kShapeItemNumMAX := by
  have shape : fzShape n c h w c0 = [h * w * blocks c c0,blocks n 16,16,c0].map Int.ofNat := by
    have kernels : ceil n kNiSize = blocks n 16 := ceil_eq_blocks n 16
    rw [fzShape,kernels,ceil_eq_blocks]
    simp [kNiSize]
  have items : [h * w * blocks c c0,blocks n 16,16,c0].prod = (fzAxes n c h w c0).prod := by
    simp only [fzAxes,prod_cons,prod_nil]
    ring
  have channels : 0 < blocks c c0 := Nat.pos_of_ne_zero fun none => by simp [(blocks_eq_zero c0Pos).mp none] at cPos
  have kernels : 0 < blocks n 16 := Nat.pos_of_ne_zero fun none => by
    simp [(blocks_eq_zero (by decide)).mp none] at nPos
  rw [shape,isShapeValid_iff _ (by simp [*]) (by simp),items]

omit hPos wPos in
theorem items_le_fz : n * c * h * w ≤ (fzAxes n c h w c0).prod := by
  have channels := le_blocks c0Pos cPos
  have kernels : n ≤ blocks n 16 * 16 := le_blocks (by decide) nPos
  calc n * c * h * w ≤ (blocks n 16 * 16) * (blocks c c0 * c0) * h * w := by gcongr
    _ = (fzAxes n c h w c0).prod := by
      simp only [fzAxes,prod_cons,prod_nil]
      ring

end Checks

section Accepted

theorem transShapeToFz_eq (n c h w c0 : Nat) : transShapeToFz n c h w c0 =
    if isShapeValid (fzShape n c h w c0) then .ok (fzShape n c h w c0) else .error .shapeInvalid := by
  have c0Some : ¬(c0 : Int) < 0 := by omega
  rw [transShapeToFz,if_neg c0Some]
  rfl

variable {axes : Nat × Nat × Nat × Nat} {srcShape : List Int}

theorem transFormatFractalZ_of_ok (memory : Nat → UInt8) (format : Format) (groups : Int) (data : List UInt8)
    {dstShape : List Int} (trans : transShapeFractalZ format groups srcShape size c0 = .ok dstShape) :
    transFormatFractalZ memory format groups ⟨data,srcShape,dstShape,size,c0⟩ =
      convertFractalZ memory format groups ⟨data,srcShape,dstShape,size,c0⟩ := by
  rw [transFormatFractalZ,trans,ok_bind]
  exact if_neg fun differs => differs.2 rfl

theorem transFormatFractalZ_of_error (memory : Nat → UInt8) (format : Format) (groups : Int) (data : List UInt8)
    {dstShape : List Int} {error : TransError} (trans : transShapeFractalZ format groups srcShape size c0 = .error error) :
    transFormatFractalZ memory format groups ⟨data,srcShape,dstShape,size,c0⟩ = .error error := by
  unfold transFormatFractalZ
  rw [trans]
  rfl

theorem transShapeFractalZ_single (sizePos : 0 < size) {groups : Int} (single : ¬1 < groups) (srcShape : List Int) (c0 : Int) :
    transShapeFractalZ .nchw groups srcShape size c0 = transShapeFrom (0,1,2,3) transShapeToFz srcShape c0 ∧
    transShapeFractalZ .nhwc groups srcShape size c0 = transShapeFrom (0,3,1,2) transShapeToFz srcShape c0 ∧
    transShapeFractalZ .hwcn groups srcShape size c0 = transShapeFrom (3,2,0,1) transShapeToFz srcShape c0 := by
  have sizeSome : ¬(size : Int) ≤ 0 := by omega
  refine ⟨?_,?_,?_⟩
  · rw [transShapeFractalZ,if_neg sizeSome]
    exact if_neg single
  · rw [transShapeFractalZ,if_neg sizeSome]
    rfl
  · rw [transShapeFractalZ,if_neg sizeSome]
    exact if_neg single

variable (dims : (dim srcShape axes.1,dim srcShape axes.2.1,dim srcShape axes.2.2.1,dim srcShape axes.2.2.2) =
    ((n : Int),(c : Int),(h : Int),(w : Int)))
include dims

theorem transShapeFrom_ok (srcValid : checkShapeValid srcShape 4) (valid : isShapeValid (fzShape n c h w c0)) :
    transShapeFrom axes transShapeToFz srcShape c0 = .ok (fzShape n c h w c0) := by
  simp only [Prod.mk.injEq] at dims
  rw [transShapeFrom,if_neg (not_not.mpr srcValid),dims.1,dims.2.1,dims.2.2.1,dims.2.2.2,transShapeToFz_eq,if_pos valid]

theorem transShapeFrom_error (invalid : ¬isShapeValid (fzShape n c h w c0)) :
    transShapeFrom axes transShapeToFz srcShape c0 = .error .shapeInvalid := by
  simp only [Prod.mk.injEq] at dims
  rw [transShapeFrom]
  split
  · rfl
  · rw [dims.1,dims.2.1,dims.2.2.1,dims.2.2.2,transShapeToFz_eq,if_neg invalid]

theorem checkArgsFromFracZ_ok (sizePos : 0 < size) (data : List UInt8) (tiledValid : checkShapeValid (fzShape n c h w c0) 4)
    (srcValid : checkShapeValid srcShape 4) :
    checkArgsFromFracZ axes ⟨data,fzShape n c h w c0,srcShape,size,c0⟩ = .ok () := by
  have sizeSome : ¬(size : Int) ≤ 0 := by omega
  have c0Some : ¬(c0 : Int) < 0 := by omega
  simp only [Prod.mk.injEq] at dims
  rw [checkArgsFromFracZ,if_neg sizeSome,if_neg (not_not.mpr tiledValid),if_neg (not_not.mpr srcValid),if_neg c0Some,dims.1,
    dims.2.1,dims.2.2.1,dims.2.2.2]
  exact if_neg (by simp [fzShape,dim])

end Accepted

structure Renderings (n c h w size : Nat) (nchw nhwc hwcn : List UInt8) : Prop where
  nchwLength : nchw.length = n * c * h * w * size
  nhwcLength : nhwc.length = n * h * w * c * size
  hwcnLength : hwcn.length = h * w * c * n * size
  nhwcElements : ∀ a < n, ∀ i < c, ∀ x < h, ∀ y < w,
    element size nhwc (nhwcPlace n c h w a i x y) = element size nchw (nchwPlace n c h w a i x y)
  hwcnElements : ∀ a < n, ∀ i < c, ∀ x < h, ∀ y < w,
    element size hwcn (hwcnPlace n c h w a i x y) = element size nchw (nchwPlace n c h w a i x y)

def FzZeroPadded (n c h w c0 size : Nat) (tiled : List UInt8) : Prop :=
  ∀ b < blocks c c0, ∀ x < h, ∀ y < w, ∀ m < blocks n 16 * 16, ∀ z < c0, c ≤ b * c0 + z ∨ n ≤ m →
    element size tiled (offset (fzAxes n c h w c0) [b,x,y,m,z]) = List.replicate size 0

theorem FzHolds.zeroPadded {value : Nat → Nat → Nat → Nat → List UInt8} {tiled : List UInt8}
    (holds : FzHolds n c h w c0 size value tiled) : FzZeroPadded n c h w c0 size tiled := by
  intro b bBound x xBound y yBound m mBound z zBound beyond
  rw [holds.elements b bBound x xBound y yBound m mBound z zBound,if_neg (by omega)]

/-- FRACTAL_Z has the same bytes whichever rendering it is made from, and keeps all of them. A tensor passes all checks when
its padded size is within the limit, and none of those towards FRACTAL_Z otherwise. -/
theorem fractalZ_lossless (memory memory' memory'' : Nat → UInt8) (n c h w : Nat) {c0 size : Nat} (c0Pos : 0 < c0)
    (sizePos : 0 < size) (sizeFits : size ≤ securecMemMaxLen) {groups : Int} (ungrouped : groups ≤ 1) :
    (∀ nchw nhwc hwcn, Renderings n c h w size nchw nhwc hwcn → ∃ tiled,
      transFormatFromNchwToFz memory ⟨nchw,[n,c,h,w],fzShape n c h w c0,size,c0⟩ = .ok tiled ∧
      transFormatNhwcToFz memory' ⟨nhwc,[n,h,w,c],fzShape n c h w c0,size,c0⟩ = .ok tiled ∧
      transFormatHwcnToFz memory'' ⟨hwcn,[h,w,c,n],fzShape n c h w c0,size,c0⟩ = .ok tiled ∧
      FzZeroPadded n c h w c0 size tiled ∧
      convertFracZNchw memory' ⟨tiled,fzShape n c h w c0,[n,c,h,w],size,c0⟩ = .ok nchw ∧
      convertFracZHwcn memory'' ⟨tiled,fzShape n c h w c0,[h,w,c,n],size,c0⟩ = .ok hwcn) ∧
    (0 < n * c * h * w → ((fzAxes n c h w c0).prod : Nat) ≤ kShapeItemNumMAX → ∀ data,
      transFormatFractalZ memory .nchw groups ⟨data,[n,c,h,w],fzShape n c h w c0,size,c0⟩ =
        transFormatFromNchwToFz memory ⟨data,[n,c,h,w],fzShape n c h w c0,size,c0⟩ ∧
      transFormatFractalZ memory .nhwc groups ⟨data,[n,h,w,c],fzShape n c h w c0,size,c0⟩ =
        transFormatNhwcToFz memory ⟨data,[n,h,w,c],fzShape n c h w c0,size,c0⟩ ∧
      transFormatFractalZ memory .hwcn groups ⟨data,[h,w,c,n],fzShape n c h w c0,size,c0⟩ =
        transFormatHwcnToFz memory ⟨data,[h,w,c,n],fzShape n c h w c0,size,c0⟩ ∧
      transFormatFracZNchw memory ⟨data,fzShape n c h w c0,[n,c,h,w],size,c0⟩ =
        convertFracZNchw memory ⟨data,fzShape n c h w c0,[n,c,h,w],size,c0⟩ ∧
      transFormatFracZHwcn memory ⟨data,fzShape n c h w c0,[h,w,c,n],size,c0⟩ =
        convertFracZHwcn memory ⟨data,fzShape n c h w c0,[h,w,c,n],size,c0⟩) ∧
    (0 < n * c * h * w → kShapeItemNumMAX < ((fzAxes n c h w c0).prod : Nat) → ∀ data,
      transFormatFractalZ memory .nchw groups ⟨data,[n,c,h,w],fzShape n c h w c0,size,c0⟩ = .error .shapeInvalid ∧
      transFormatFractalZ memory .nhwc groups ⟨data,[n,h,w,c],fzShape n c h w c0,size,c0⟩ = .error .shapeInvalid ∧
      transFormatFractalZ memory .hwcn groups ⟨data,[h,w,c,n],fzShape n c h w c0,size,c0⟩ = .error .shapeInvalid) := by
  have sizeSome : ¬(size : Int) ≤ 0 := by omega
  have single : ¬1 < groups := by omega
  refine ⟨?_,?_,?_⟩
  · intro nchw nhwc hwcn renderings
    have nchwLength := renderings.nchwLength
    have nhwcLength := renderings.nhwcLength
    have hwcnLength := renderings.hwcnLength
    rw [four_items] at nchwLength nhwcLength hwcnLength
    obtain ⟨tiled,first,holds⟩ := transFormatFromNchwToFz_spec sizePos sizeFits memory nchwLength (fzShape n c h w c0)
    obtain ⟨tiled',second,holds'⟩ := transFormatNhwcToFz_spec sizePos sizeFits memory' nhwcLength
    obtain ⟨tiled'',third,holds''⟩ := transFormatHwcnToFz_spec sizePos sizeFits memory'' hwcnLength
    have same : tiled' = tiled := holds'.unique holds renderings.nhwcElements
    have same' : tiled'' = tiled := holds''.unique holds renderings.hwcnElements
    obtain ⟨back,restored,length,elements⟩ := convertFracZNchw_spec sizePos sizeFits c0Pos holds.length memory'
    obtain ⟨back',restored',length',elements'⟩ := convertFracZHwcn_spec sizePos sizeFits c0Pos holds.length memory''
    have original : back = nchw := by
      apply ext_four length nchwLength
      intro a aBound i iBound x xBound y yBound
      exact (elements a aBound i iBound x xBound y yBound).trans (holds.at_element c0Pos aBound iBound xBound yBound)
    have original' : back' = hwcn := by
      apply ext_four length' hwcnLength
      intro x xBound y yBound i iBound a aBound
      exact ((elements' x xBound y yBound i iBound a aBound).trans (holds.at_element c0Pos aBound iBound xBound yBound)).trans
        (renderings.hwcnElements a aBound i iBound x xBound y yBound).symm
    exact ⟨tiled,first,same ▸ second,same' ▸ third,holds.zeroPadded,original ▸ restored,original' ▸ restored'⟩
  · intro some limit data
    obtain ⟨nPos,cPos,hPos,wPos⟩ := pos_of_items some
    have valid := (fzShape_valid_iff nPos cPos hPos wPos c0Pos).mpr limit
    have small : n * c * h * w ≤ (fzAxes n c h w c0).prod := items_le_fz nPos cPos c0Pos
    obtain ⟨nchwValid,nhwcValid,hwcnValid⟩ := plainShape_valid nPos cPos hPos wPos (by omega)
    have tiledValid : checkShapeValid (fzShape n c h w c0) 4 := valid
    have nchw := (transShapeFractalZ_single sizePos single [n,c,h,w] c0).1.trans (transShapeFrom_ok rfl nchwValid valid)
    have nhwc := (transShapeFractalZ_single sizePos single [n,h,w,c] c0).2.1.trans (transShapeFrom_ok rfl nhwcValid valid)
    have hwcn := (transShapeFractalZ_single sizePos single [h,w,c,n] c0).2.2.trans (transShapeFrom_ok rfl hwcnValid valid)
    refine ⟨transFormatFractalZ_of_ok memory .nchw groups data nchw,transFormatFractalZ_of_ok memory .nhwc groups data nhwc,
      (transFormatFractalZ_of_ok memory .hwcn groups data hwcn).trans (if_neg single),?_,?_⟩
    · rw [transFormatFracZNchw,checkArgsForFracZToNchw,checkArgsFromFracZ_ok rfl sizePos data tiledValid nchwValid,ok_bind]
    · rw [transFormatFracZHwcn,checkArgsForFracZToHwcn,checkArgsFromFracZ_ok rfl sizePos data tiledValid hwcnValid,ok_bind]
  · intro some limit data
    obtain ⟨nPos,cPos,hPos,wPos⟩ := pos_of_items some
    have invalid : ¬isShapeValid (fzShape n c h w c0) := fun valid =>
      absurd ((fzShape_valid_iff nPos cPos hPos wPos c0Pos).mp valid) (not_le.mpr limit)
    have nchw := (transShapeFractalZ_single sizePos single [n,c,h,w] c0).1.trans (transShapeFrom_error rfl invalid)
    have nhwc := (transShapeFractalZ_single sizePos single [n,h,w,c] c0).2.1.trans (transShapeFrom_error rfl invalid)
    have hwcn := (transShapeFractalZ_single sizePos single [h,w,c,n] c0).2.2.trans (transShapeFrom_error rfl invalid)
    exact ⟨transFormatFractalZ_of_error memory .nchw groups data nchw,
      transFormatFractalZ_of_error memory .nhwc groups data nhwc,transFormatFractalZ_of_error memory .hwcn groups data hwcn⟩

theorem fractalZ_lossless_two : ∃ tiled,
    transFormatFromNchwToFz (fun _ => 7) ⟨[1,2],[(1 : Nat),(2 : Nat),(1 : Nat),(1 : Nat)],fzShape 1 2 1 1 4,(1 : Nat),(4 : Nat)⟩ =
      .ok tiled ∧
    transFormatNhwcToFz (fun _ => 8) ⟨[1,2],[(1 : Nat),(1 : Nat),(1 : Nat),(2 : Nat)],fzShape 1 2 1 1 4,(1 : Nat),(4 : Nat)⟩ =
      .ok tiled ∧
    transFormatHwcnToFz (fun _ => 9) ⟨[1,2],[(1 : Nat),(1 : Nat),(2 : Nat),(1 : Nat)],fzShape 1 2 1 1 4,(1 : Nat),(4 : Nat)⟩ =
      .ok tiled ∧
    FzZeroPadded 1 2 1 1 4 1 tiled ∧
    convertFracZNchw (fun _ => 8) ⟨tiled,fzShape 1 2 1 1 4,[(1 : Nat),(2 : Nat),(1 : Nat),(1 : Nat)],(1 : Nat),(4 : Nat)⟩ =
      .ok [1,2] ∧
    convertFracZHwcn (fun _ => 9) ⟨tiled,fzShape 1 2 1 1 4,[(1 : Nat),(1 : Nat),(2 : Nat),(1 : Nat)],(1 : Nat),(4 : Nat)⟩ =
      .ok [1,2] :=
  (fractalZ_lossless (fun _ => 7) (fun _ => 8) (fun _ => 9) 1 2 1 1 (by decide) (by decide) (by decide)
    (by decide : (0 : Int) ≤ 1)).1 [1,2] [1,2] [1,2] ⟨rfl,rfl,rfl,by decide,by decide⟩

end GraphEngine.Formats
