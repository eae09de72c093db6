import GraphEngine.Formats.FractalZC04Back

/-! When the two ways between HWCN and FRACTAL_Z_C04 fit together. -/

namespace GraphEngine.Formats

open Lib.RowMajor Lib.ElementBuffer List

variable {n c h w size : Nat}

section RoundTrip

def ReturnsOriginal (groups : Int) (h w c n size : Nat) : Prop :=
  ∀ memory data c0, data.length = [h,w,c,n].prod * size → ∃ shape tiled,
    transShapeFzC04 .hwcn ([h,w,c,n].map Int.ofNat) size = .ok shape ∧
    transFormat4DToFzC04 memory .hwcn groups ⟨data,[h,w,c,n].map Int.ofNat,shape,size,c0⟩ = .ok tiled ∧
    transFormatFzC04To4D groups ⟨tiled,shape,[h,w,c,n].map Int.ofNat,size,c0⟩ = .ok data

def FailsBothWays (groups : Int) (h w c n size : Nat) : Prop :=
  (∀ memory data c0 shape tiled, data.length = [h,w,c,n].prod * size →
    transFormat4DToFzC04 memory .hwcn groups ⟨data,[h,w,c,n].map Int.ofNat,shape,size,c0⟩ ≠ .ok tiled) ∧
  ∀ c0 shape tiled data, (tiled.length : Int) = getItemNumByShape shape * size →
    transFormatFzC04To4D groups ⟨tiled,shape,[h,w,c,n].map Int.ofNat,size,c0⟩ ≠ .ok data

/-- The last column that the way back reads, in elements, when there are all four residues of channels. -/
def lastRead (h w c size : Nat) : Nat := (h - 1) * w * blocks c (cube size) * 4 + (w - 1) * 4 + 3

variable {groups : Int} (single : groups = 0 ∨ groups = 1) (hPos : 0 < h) (wPos : 0 < w) (cPos : 0 < c) (nPos : 0 < n)
  (sizePos : 0 < size)

theorem c04Axes_prod_le (hPos : 0 < h) (wPos : 0 < w) (nPos : 0 < n) :
    (c04Axes h w (blocks n 16) size).prod ≤ 560 * (h * w * n) := by
  have innerPos : 0 < h * w := mul_pos hPos wPos
  have cubeLe : cube size ≤ 32 := by
    unfold cube
    split <;> decide
  have columnsLe : columns h w size * cube size ≤ 35 * (h * w) := by
    have := Nat.div_mul_le_self (h * w * 4 - 1) (cube size)
    rw [columns,blocks_eq (by omega) (cube_pos size),Nat.succ_mul]
    omega
  have kernelsLe : blocks n 16 * 16 ≤ 16 * n := by
    rw [blocks_eq nPos (by decide)]
    omega
  calc (c04Axes h w (blocks n 16) size).prod = columns h w size * cube size * (blocks n 16 * 16) := by
        simp only [c04Axes,prod_cons,prod_nil]
        ring
    _ ≤ 35 * (h * w) * (16 * n) := Nat.mul_le_mul columnsLe kernelsLe
    _ = 560 * (h * w * n) := by ring

include hPos wPos in
theorem reads_inside (inside : lastRead h w c size < columns h w size * cube size) : ∀ index ∈ indices [c,h,w,n],
    c04At w (blocks c (cube size)) (blocks n 16) size index < (c04Axes h w (blocks n 16) size).prod := by
  simp only [forall_indices_cons,forall_indices_nil]
  intro i _ x xBound y yBound a aBound
  have row : x * w * blocks c (cube size) * 4 ≤ (h - 1) * w * blocks c (cube size) * 4 := by
    gcongr
    omega
  refine (idxFz_lt_iff aBound).mpr (lt_of_le_of_lt ?_ inside)
  rw [lastRead]
  omega

include single hPos wPos cPos nPos sizePos

theorem returnsOriginal (four : c ≤ 4) (small : c04Bytes h w n size ≤ securecMemMaxLen) :
    ReturnsOriginal groups h w c n size := by
  have limit : (securecMemMaxLen : Int) ≤ kShapeItemNumMAX := by decide
  have one : blocks c (cube size) = 1 := by
    have sixteen : 16 ≤ cube size := by
      unfold cube
      split <;> decide
    rw [blocks_eq cPos (cube_pos size),Nat.div_eq_of_lt (by omega)]
  have plainBytes : [n,c,h,w].prod * size ≤ securecMemMaxLen :=
    (Nat.mul_le_mul_right size (plain_le_padded nPos four)).trans ((items_le_c04Bytes hPos wPos).trans small)
  have reordered : [n,c,h,w].prod = [h,w,c,n].prod := by
    simp only [prod_cons,prod_nil]
    ring
  have plainItems := (Nat.le_mul_of_pos_right [n,c,h,w].prod sizePos).trans plainBytes
  have tiledItems := (Nat.le_mul_of_pos_right (c04Axes h w (blocks n 16) size).prod sizePos).trans small
  have accepted := shape_accepted hPos wPos cPos nPos sizePos (by omega) (by omega)
  have inside : lastRead h w c size < columns h w size * cube size := by
    have wide := le_blocks (cube_pos size) (mul_pos (mul_pos hPos wPos) (by decide : 0 < 4))
    have last := inner_lt (by decide : 3 < 4) (by omega : h - 1 < h) (by omega : w - 1 < w)
    have same : lastRead h w c size = ((h - 1) * w + (w - 1)) * 4 + 3 := by
      rw [lastRead,one]
      ring
    rw [same]
    exact lt_of_lt_of_le last wide
  intro memory data c0 whole
  obtain ⟨tiled,forward,length,placed⟩ :=
    hwcn_to_c04 memory hPos wPos nPos sizePos single ((c04Axes h w (blocks n 16) size).map Int.ofNat) c0 cPos four small whole
  obtain ⟨final,backward,finalLength,read⟩ := c04_to_hwcn single hPos wPos cPos nPos sizePos c0 accepted (by rwa [← reordered])
    (lt_of_le_of_lt small (by decide)) length (reads_inside hPos wPos inside)
  have same : final = data := by
    apply ext_four finalLength whole
    intro x xBound y yBound i iBound a aBound
    have back := read [i,x,y,a] (mem_indices_four iBound xBound yBound aBound)
    have there : c04At w (blocks c (cube size)) (blocks n 16) size [i,x,y,a] =
        offset (c04Axes h w (blocks n 16) size) (c04Place w size a i x y) := by
      rw [one]
      exact idxFz_eq (by omega)
    rw [there,placed x xBound y yBound i iBound a aBound] at back
    exact back
  refine ⟨_,tiled,by rw [transShapeFzC04_hwcn h w c n sizePos,accepted],forward,?_⟩
  rw [backward,same]

theorem backward_succeeds (many : 4 < c) (small : [h,w,c,n].prod * size ≤ securecMemMaxLen)
    (inside : lastRead h w c size < columns h w size * cube size) : ¬FailsBothWays groups h w c n size := by
  have limit : 112 * (securecMemMaxLen : Int) ≤ kShapeItemNumMAX := by decide
  have five : 5 * (h * w * n) ≤ [h,w,c,n].prod := by
    calc 5 * (h * w * n) ≤ c * (h * w * n) := Nat.mul_le_mul_right _ many
      _ = [h,w,c,n].prod := by
        simp only [prod_cons,prod_nil]
        ring
  have axes : (c04Axes h w (blocks n 16) size).prod ≤ 112 * [h,w,c,n].prod := by
    have padding : (c04Axes h w (blocks n 16) size).prod ≤ 560 * (h * w * n) := c04Axes_prod_le hPos wPos nPos
    omega
  have bytes : c04Bytes h w n size ≤ 112 * securecMemMaxLen := by
    calc c04Bytes h w n size ≤ 112 * [h,w,c,n].prod * size := Nat.mul_le_mul_right size axes
      _ = 112 * ([h,w,c,n].prod * size) := mul_assoc _ _ _
      _ ≤ 112 * securecMemMaxLen := Nat.mul_le_mul_left 112 small
  have plainItems := (Nat.le_mul_of_pos_right [h,w,c,n].prod sizePos).trans small
  have reordered : [n,c,h,w].prod = [h,w,c,n].prod := by
    simp only [prod_cons,prod_nil]
    ring
  have accepted := shape_accepted hPos wPos cPos nPos sizePos (by omega) (by omega)
  rintro ⟨_,never⟩
  have length : (List.replicate (c04Bytes h w n size) (0 : UInt8)).length = c04Bytes h w n size := length_replicate
  obtain ⟨final,backward,_⟩ := c04_to_hwcn single hPos wPos cPos nPos sizePos 0 accepted small
    (lt_of_le_of_lt bytes (by decide)) length (reads_inside hPos wPos inside)
  refine never 0 _ _ final ?_ backward
  rw [length,items_cast,c04Bytes,Int.natCast_mul]

/-- With up to four channels the original comes back unless the blocked tensor is longer than what one call clears. With more
the way there fails, and the way back only where it leaves the buffer or the tensor is too long. -/
theorem c04_round_trip_iff : ((c ≤ 4 → ReturnsOriginal groups h w c n size) ∧ (4 < c → FailsBothWays groups h w c n size)) ↔
    c ≤ 4 ∧ c04Bytes h w n size ≤ securecMemMaxLen ∨
    4 < c ∧ (securecMemMaxLen < [h,w,c,n].prod * size ∨ columns h w size * cube size ≤ lastRead h w c size) := by
  constructor
  · rintro ⟨returns,fails⟩
    by_cases four : c ≤ 4
    · refine .inl ⟨four,Nat.le_of_not_lt ?_⟩
      intro large
      obtain ⟨shape,tiled,_,forward,_⟩ := returns four (fun _ => 0) (List.replicate ([h,w,c,n].prod * size) 0) 0 length_replicate
      exact hwcn_to_c04_fails (fun _ => 0) hPos wPos nPos sizePos single shape 0 (.inr large) tiled forward
    · refine .inr ⟨Nat.lt_of_not_le four,?_⟩
      by_contra fine
      rw [not_or,Nat.not_lt,Nat.not_le] at fine
      exact backward_succeeds single hPos wPos cPos nPos sizePos (Nat.lt_of_not_le four) fine.1 fine.2
        (fails (Nat.lt_of_not_le four))
  · rintro (⟨four,small⟩ | ⟨many,bad⟩)
    · exact ⟨fun _ => returnsOriginal single hPos wPos cPos nPos sizePos four small,fun many => absurd four (Nat.not_le.mpr many)⟩
    · refine ⟨fun four => absurd four (Nat.not_le.mpr many),fun _ => ⟨?_,?_⟩⟩
      · intro memory data c0 shape tiled _
        exact hwcn_to_c04_fails memory hPos wPos nPos sizePos single shape c0 (.inl many) tiled
      · intro c0 shape tiled data _
        exact c04_to_hwcn_fails single hPos wPos cPos nPos sizePos c0
          (bad.imp_right fun outside => ⟨[3,h - 1,w - 1,0],mem_indices_four (by omega) (by omega) (by omega) nPos,
            Nat.le_of_not_lt fun within => Nat.not_lt.mpr outside ((idxFz_lt_iff nPos).mp within)⟩) tiled data shape

end RoundTrip

theorem two_channels_return : (2 ≤ 4 → ReturnsOriginal 0 3 3 2 17 2) ∧ (4 < 2 → FailsBothWays 0 3 3 2 17 2) :=
  (c04_round_trip_iff (.inl rfl) (by decide) (by decide) (by decide) (by decide) (by decide)).mpr (.inl (by decide))

/-- Five channels: there is no way there, but the way back gives a result. -/
theorem five_channels_come_back :
    transFormat4DToFzC04 (fun _ => 7) .hwcn 0 ⟨[1,2,3,4,5],[1,1,5,1],[1,1,16,32],1,16⟩ = .error .shapeInvalid ∧
    transFormatFzC04To4D 0 ⟨[1,2,3,4] ++ List.replicate 508 0,[1,1,16,32],[1,1,5,1],1,16⟩ = .ok [1,2,3,4,1] := by
  decide +kernel

end GraphEngine.Formats
