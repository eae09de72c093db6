import GraphEngine.Formats.FractalZC04Forward

/-! The whole way from HWCN to FRACTAL_Z_C04: where every element goes, and when there is none. -/

namespace GraphEngine.Formats

open Lib.RowMajor Lib.ElementBuffer Lib.Placement Lib.AxisPermutation Lib List
open Int (ofNat)

variable {n c h w size : Nat} {data : List UInt8}

def c04Bytes (h w n size : Nat) : Nat := (c04Axes h w (blocks n 16) size).prod * size

theorem items_le_c04Bytes (hPos : 0 < h) (wPos : 0 < w) : [blocks n 16 * 16,4,h,w].prod * size ≤ c04Bytes h w n size := by
  have inner : 0 < h * w * 4 := mul_pos (mul_pos hPos wPos) (by decide)
  have wide := le_blocks (cube_pos size) inner
  calc [blocks n 16 * 16,4,h,w].prod * size = h * w * 4 * (blocks n 16 * 16 * size) := by
        simp only [prod_cons,prod_nil]
        ring
    _ ≤ columns h w size * cube size * (blocks n 16 * 16 * size) := Nat.mul_le_mul_right _ wide
    _ = c04Bytes h w n size := by
        simp only [c04Bytes,c04Axes,prod_cons,prod_nil]
        ring

theorem plain_le_padded (nPos : 0 < n) (four : c ≤ 4) : [n,c,h,w].prod ≤ [blocks n 16 * 16,4,h,w].prod := by
  simp only [prod_cons,prod_nil,mul_one]
  exact Nat.mul_le_mul (le_blocks (by decide) nPos) (Nat.mul_le_mul_right _ four)

theorem paddingNC_eq (data : List UInt8) (n c h w size : Nat) (c0 : Int) : paddingNC ⟨data,[n,c,h,w].map ofNat,[],size,c0⟩ =
      if ¬checkShapeValid ([n,c,h,w].map ofNat) 4 then .error .shapeInvalid
      else if kMaxDimsNumC < c then .error .shapeInvalid
      else (do
        let dstSize ← getTotalDataSize [ceil (n : Int) kCubeK * kCubeK,kMaxDimsNumC,(h : Int),(w : Int)] size
        if dstSize = 0 then .ok ⟨data,[ceil (n : Int) kCubeK * kCubeK,kMaxDimsNumC,(h : Int),(w : Int)],[],size,c0⟩
        else do
          let dst ← (clearedBuffer dstSize.toNat).mapError fun _ => .failed
          let padded ← paddingLoops data n c h w dstSize.toNat size (dst,dstSize)
          .ok ⟨padded.1,[ceil (n : Int) kCubeK * kCubeK,kMaxDimsNumC,(h : Int),(w : Int)],[],size,c0⟩) := rfl

theorem paddedShape_eq (n h w : Nat) : [ceil (n : Int) kCubeK * kCubeK,kMaxDimsNumC,(h : Int),(w : Int)] =
    [((blocks n 16 * 16 : Nat) : Int),(4 : Nat),(h : Nat),(w : Nat)] := by
  rw [show kCubeK = ((16 : Nat) : Int) from rfl,ceil_eq_blocks,← Int.natCast_mul]
  rfl

theorem paddingNC_spec (nPos : 0 < n) (cPos : 0 < c) (hPos : 0 < h) (wPos : 0 < w) (sizePos : 0 < size) (four : c ≤ 4)
    (small : c04Bytes h w n size ≤ securecMemMaxLen) (whole : data.length = [n,c,h,w].prod * size) (c0 : Int) : ∃ padded,
    paddingNC ⟨data,[n,c,h,w].map ofNat,[],size,c0⟩ = .ok ⟨padded,[blocks n 16 * 16,4,h,w].map ofNat,[],size,c0⟩ ∧
      padded.length = [blocks n 16 * 16,4,h,w].prod * size ∧ ∀ a < n, ∀ i < c, ∀ x < h, ∀ y < w,
        element size padded (offset [blocks n 16 * 16,4,h,w] [a,i,x,y]) = element size data (offset [n,c,h,w] [a,i,x,y]) := by
  have mPos : 0 < blocks n 16 := blocks_pos (by decide) nPos
  have paddedSmall := (items_le_c04Bytes hPos wPos).trans small
  have flat : ∀ a b, [a,b,h * w].prod = [a,b,h,w].prod := by
    intro a b
    simp only [prod_cons,prod_nil]
    ring
  have items : ([n,c,h,w].prod : Nat) ≤ kShapeItemNumMAX := by
    have few := (Nat.le_mul_of_pos_right _ sizePos).trans
      ((Nat.mul_le_mul_right size (plain_le_padded nPos four)).trans paddedSmall)
    have limit : (securecMemMaxLen : Int) ≤ kShapeItemNumMAX := by decide
    omega
  have valid : checkShapeValid ([n,c,h,w].map ofNat) 4 :=
    checkShapeValid_of_le [n,c,h,w] (by simp [nPos,cPos,hPos,wPos]) (by simp) items
  have rowsFit : n ≤ blocks n 16 * 16 := le_blocks (by decide) nPos
  obtain ⟨padded,left,exec,renders⟩ := paddingLoops_spec (mul_pos hPos wPos) sizePos (by rwa [flat])
    rowsFit four (by rwa [flat])
  have total := getTotalDataSize_ok (mul_pos mPos (by decide : 0 < 16)) (by decide : 0 < 4) hPos wPos sizePos
    (lt_of_le_of_lt paddedSmall (by decide))
  have someBytes : 0 < [blocks n 16 * 16,4,h,w].prod * size := by
    simp [mPos,hPos,wPos,sizePos]
  refine ⟨padded,?_,by rw [renders.length,flat],?_⟩
  · rw [paddingNC_eq,if_neg (not_not.mpr valid),if_neg
      (by rw [show kMaxDimsNumC = 4 from rfl]; omega),paddedShape_eq,total,ok_bind,
      if_neg (by omega),Int.toNat_natCast,clearedBuffer,if_neg (by omega)]
    rw [flat] at exec
    change (do
      let padded ← paddingLoops data n c h w _ size _
      .ok (TransArgs.mk padded.1 _ _ _ _)) = _
    rw [exec,ok_bind]
    rfl
  · intro a aBound i iBound x xBound y yBound
    have row : x * w + y < h * w := by
      have := Nat.mul_le_mul_right w (Nat.succ_le_of_lt xBound)
      rw [Nat.succ_mul] at this
      omega
    have one := renders.elements [a,i,x * w + y] (by simp [indices,aBound,iBound,row])
    have place : ∀ d e, offset [d,e,h,w] [a,i,x,y] = offset [d,e,h * w] [a,i,x * w + y] := by
      intro d e
      simp only [offset,prod_cons,prod_nil]
      ring
    rw [place,place]
    exact one

theorem paddingNC_cases {c0 : Int} {padded : TransArgs} (exec : paddingNC ⟨data,[n,c,h,w].map ofNat,[],size,c0⟩ = .ok padded) :
    c ≤ 4 ∧ ∃ bytes, padded = ⟨bytes,[blocks n 16 * 16,4,h,w].map ofNat,[],size,c0⟩ := by
  rw [paddingNC_eq,paddedShape_eq] at exec
  obtain ⟨_,exec⟩ := check_ok exec
  obtain ⟨few,exec⟩ := check_ok exec
  obtain ⟨dstSize,_,exec⟩ := bind_ok exec
  rw [show kMaxDimsNumC = 4 from rfl] at few
  refine ⟨by omega,?_⟩
  split at exec
  · cases exec
    exact ⟨_,rfl⟩
  · obtain ⟨_,_,exec⟩ := bind_ok exec
    obtain ⟨_,_,exec⟩ := bind_ok exec
    cases exec
    exact ⟨_,rfl⟩

section Shapes

theorem transShapeNchwToFzC04_eq (n c h w : Nat) (sizePos : 0 < size) : transShapeNchwToFzC04 ([n,c,h,w].map ofNat) size =
      if ¬checkShapeValid ([n,c,h,w].map ofNat) 4 then .error .shapeInvalid
      else if isShapeValid ((c04Axes h w (blocks n 16) size).map ofNat) then
        .ok ((c04Axes h w (blocks n 16) size).map ofNat)
      else .error .shapeInvalid := by
  have inner : kC04 * (h : Int) * (w : Int) = ((h * w * 4 : Nat) : Int) := by
    rw [show kC04 = 4 from rfl]
    push_cast
    ring
  have shape : [ceil (kC04 * (h : Int) * (w : Int)) (cube size : Int),ceil (n : Int) kCubeK,kCubeK,(cube size : Int)] =
      (c04Axes h w (blocks n 16) size).map ofNat := by
    rw [inner,ceil_eq_blocks,show kCubeK = ((16 : Nat) : Int) from rfl,ceil_eq_blocks]
    rfl
  unfold transShapeNchwToFzC04
  dsimp only
  rw [getCubeSizeByDataType_eq sizePos,if_neg (by omega : ¬((cube size : Int) < 0)),
    show dim ([n,c,h,w].map ofNat) 2 = (h : Int) from rfl,show dim ([n,c,h,w].map ofNat) 3 = (w : Int) from rfl,
    show dim ([n,c,h,w].map ofNat) 0 = (n : Int) from rfl,shape]

theorem shape_accepted (hPos : 0 < h) (wPos : 0 < w) (cPos : 0 < c) (nPos : 0 < n) (sizePos : 0 < size)
    (plain : ([n,c,h,w].prod : Nat) ≤ kShapeItemNumMAX)
    (tiled : ((c04Axes h w (blocks n 16) size).prod : Nat) ≤ kShapeItemNumMAX) :
    transShapeNchwToFzC04 ([n,c,h,w].map ofNat) size = .ok ((c04Axes h w (blocks n 16) size).map ofNat) := by
  have mPos : 0 < blocks n 16 := blocks_pos (by decide) nPos
  have plainValid : checkShapeValid ([n,c,h,w].map ofNat) 4 :=
    checkShapeValid_of_le [n,c,h,w] (by simp [nPos,cPos,hPos,wPos]) (by simp) plain
  have tiledValid : isShapeValid ((c04Axes h w (blocks n 16) size).map ofNat) :=
    isShapeValid_of_le _ (by simp [c04Axes,columns_pos size hPos wPos,mPos,cube_pos size]) (by simp [c04Axes]) tiled
  rw [transShapeNchwToFzC04_eq n c h w sizePos,if_neg (not_not.mpr plainValid),if_pos tiledValid]

theorem hwcn_isShapeArgValid (h w c n : Nat) : isShapeArgValid ([h,w,c,n].map ofNat) [3,2,0,1] := by
  simp [isShapeArgValid]

theorem hwcn_toNchw (h w c n : Nat) : transShapeFromSrcToNchw .hwcn ([h,w,c,n].map ofNat) = .ok ([n,c,h,w].map ofNat) := by
  simp only [transShapeFromSrcToNchw,permArgs]
  rw [if_pos (hwcn_isShapeArgValid h w c n)]
  rfl

theorem transShapeFzC04_hwcn (h w c n : Nat) (sizePos : 0 < size) : transShapeFzC04 .hwcn ([h,w,c,n].map ofNat) size =
    transShapeNchwToFzC04 ([n,c,h,w].map ofNat) size := by
  rw [transShapeFzC04,if_neg (by omega),hwcn_toNchw]
  rfl

theorem transShapeFzC04_nchw (n c h w : Nat) (sizePos : 0 < size) : transShapeFzC04 .nchw ([n,c,h,w].map ofNat) size =
    transShapeNchwToFzC04 ([n,c,h,w].map ofNat) size := by
  rw [transShapeFzC04,if_neg (by omega)]
  rfl

end Shapes

section Forward

variable (memory : Nat → UInt8) (hPos : 0 < h) (wPos : 0 < w) (nPos : 0 < n) (sizePos : 0 < size)
  {groups : Int} (single : groups = 0 ∨ groups = 1) (dstShape : List Int) (c0 : Int)

theorem transFormat4DToFzC04_eq (data : List UInt8) (single : groups = 0 ∨ groups = 1) :
    transFormat4DToFzC04 memory .hwcn groups ⟨data,[h,w,c,n].map ofNat,dstShape,size,c0⟩ = (do
      let nchw ← (transpose memory data ([h,w,c,n].map ofNat) size [3,2,0,1]).mapError fun _ => .failed
      let padded ← paddingNC ⟨nchw,[n,c,h,w].map ofNat,[],size,c0⟩
      let expectShape ← transShapeFzC04 .nchw padded.srcShape padded.size
      if padded.dstShape ≠ [] ∧ padded.dstShape ≠ expectShape then .error .shapeInvalid
      else transFormatNchwToFzC04 memory padded) := by
  have transposed : transFormatTranspose memory .hwcn .nchw ⟨data,[h,w,c,n].map ofNat,[n,c,h,w].map ofNat,size,c0⟩ =
      transpose memory data ([h,w,c,n].map ofNat) size [3,2,0,1] := by
    have valid := hwcn_isShapeArgValid h w c n
    have same : ¬([n,c,h,w].map ofNat ≠ [] ∧ [n,c,h,w].map ofNat ≠ [3,2,0,1].map (dim ([h,w,c,n].map ofNat))) :=
      fun differ => differ.2 rfl
    simp only [transFormatTranspose,permArgs]
    rw [if_neg (not_not.mpr valid),if_neg same]
  rw [transFormat4DToFzC04,if_neg (by omega),buildTransArgsNchwToFzC04,hwcn_toNchw,ok_bind,transposed]
  cases transpose memory data ([h,w,c,n].map ofNat) size [3,2,0,1] with
  | error error => rfl
  | ok nchw => rfl
  intro same
  cases same

include hPos wPos nPos sizePos single

theorem hwcn_to_c04 (cPos : 0 < c) (four : c ≤ 4) (small : c04Bytes h w n size ≤ securecMemMaxLen)
    (whole : data.length = [h,w,c,n].prod * size) : ∃ tiled,
    transFormat4DToFzC04 memory .hwcn groups ⟨data,[h,w,c,n].map ofNat,dstShape,size,c0⟩ = .ok tiled ∧
      tiled.length = c04Bytes h w n size ∧ ∀ x < h, ∀ y < w, ∀ i < c, ∀ a < n,
        element size tiled (offset (c04Axes h w (blocks n 16) size) (c04Place w size a i x y)) =
          element size data (offset [h,w,c,n] [x,y,i,a]) := by
  have mPos : 0 < blocks n 16 := blocks_pos (by decide) nPos
  have axesPos : 0 < (c04Axes h w (blocks n 16) size).prod := by
    simp [c04Axes,columns_pos size hPos wPos,mPos,cube_pos size]
  have sizeSmall : size ≤ securecMemMaxLen := (Nat.le_mul_of_pos_left size axesPos).trans small
  have limit : (securecMemMaxLen : Int) ≤ kShapeItemNumMAX := by decide
  have order : [3,2,0,1].Perm (List.range 4) := by decide
  -- the four buffers
  obtain ⟨nchw,first,kernelsFirst⟩ := transpose_permutes sizePos sizeSmall memory (by simp) order whole
  have nchwWhole : nchw.length = [n,c,h,w].prod * size := by
    rw [kernelsFirst.length]
    simp only [prod_cons,prod_nil]
    ring
  obtain ⟨padded,second,paddedWhole,kept⟩ := paddingNC_spec nPos cPos hPos wPos sizePos four small nchwWhole c0
  obtain ⟨tiled,third,length,placed⟩ := transFormatNchwToFzC04_spec memory hPos wPos mPos sizePos small paddedWhole [] c0
  have paddedItems : ([blocks n 16 * 16,4,h,w].prod : Nat) ≤ kShapeItemNumMAX := by
    have few := (Nat.le_mul_of_pos_right _ sizePos).trans ((items_le_c04Bytes hPos wPos).trans small)
    omega
  have axesItems : ((c04Axes h w (blocks n 16) size).prod : Nat) ≤ kShapeItemNumMAX := by
    have few := (Nat.le_mul_of_pos_right _ sizePos).trans small
    omega
  have accepted := shape_accepted hPos wPos (by decide : 0 < 4) (mul_pos mPos (by decide : 0 < 16)) sizePos paddedItems
    (by rwa [blocks_sixteen mPos])
  refine ⟨tiled,?_,length,?_⟩
  · rw [transFormat4DToFzC04_eq memory dstShape c0 data single,first]
    change (do
      let padded ← paddingNC ⟨nchw,[n,c,h,w].map ofNat,[],size,c0⟩
      let expectShape ← transShapeFzC04 .nchw padded.srcShape padded.size
      if padded.dstShape ≠ [] ∧ padded.dstShape ≠ expectShape then .error .shapeInvalid
      else transFormatNchwToFzC04 memory padded) = _
    rw [second,ok_bind]
    dsimp only
    rw [transShapeFzC04_nchw _ _ _ _ sizePos,accepted,ok_bind,if_neg (by simp)]
    exact third
  · intro x xBound y yBound i iBound a aBound
    have fits : n ≤ blocks n 16 * 16 := le_blocks (by decide) nPos
    have one := kernelsFirst.elements _ (mem_indices_four xBound yBound iBound aBound)
    have two := kept a aBound i iBound x xBound y yBound
    have three := placed a (by omega) i (by omega) x xBound y yBound
    exact three.trans (two.trans one)

theorem hwcn_to_c04_fails (bad : 4 < c ∨ securecMemMaxLen < c04Bytes h w n size) (tiled : List UInt8) :
    transFormat4DToFzC04 memory .hwcn groups ⟨data,[h,w,c,n].map ofNat,dstShape,size,c0⟩ ≠ .ok tiled := by
  have mPos : 0 < blocks n 16 := blocks_pos (by decide) nPos
  intro exec
  rw [transFormat4DToFzC04_eq memory dstShape c0 data single] at exec
  obtain ⟨nchw,_,exec⟩ := bind_ok exec
  obtain ⟨padded,padding,exec⟩ := bind_ok exec
  obtain ⟨_,_,exec⟩ := bind_ok exec
  obtain ⟨_,exec⟩ := check_ok exec
  obtain ⟨four,bytes,rfl⟩ := paddingNC_cases padding
  rw [transFormatNchwToFzC04_eq memory mPos sizePos] at exec
  obtain ⟨_,_,exec⟩ := bind_ok exec
  obtain ⟨_,exec⟩ := check_ok exec
  obtain ⟨dstSize,total,exec⟩ := bind_ok exec
  have value : dstSize = (c04Bytes h w n size : Nat) := by
    rcases getTotalDataSize_cases (blocks n 16) (16 : Nat) (columns h w size : Nat) (cube size : Nat) size with known | failed
    · rw [known] at total
      cases total
      simp only [c04Bytes,c04Axes,prod_cons,prod_nil]
      push_cast
      ring
    · rw [failed] at total
      cases total
  have bytesPos : 0 < c04Bytes h w n size := by
    simp [c04Bytes,c04Axes,mPos,cube_pos size,columns_pos size hPos wPos,sizePos]
  rw [value,if_neg (by omega),Int.toNat_natCast] at exec
  obtain ⟨_,cleared,_⟩ := bind_ok exec
  obtain ⟨room,_⟩ := check_ok cleared
  omega

end Forward

end GraphEngine.Formats
