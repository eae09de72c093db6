import GraphEngine.Formats.FractalZC04Pipeline
import GraphEngine.Formats.FractalZGroups

/-! The way back from FRACTAL_Z_C04. It does not look at the number of channels: it reads channel `c` at the place of channel
`c % 4`, and fails only where it leaves the buffer. -/

namespace GraphEngine.Formats

open Lib.RowMajor Lib.ElementBuffer Lib.Placement Lib.AxisPermutation Lib List
open Int (ofNat toNat_natCast)

variable {n c h w size : Nat} {data : List UInt8}

section Places

def hwcnAt (h w c n : Nat) : List Nat → Nat := at4 0 fun i x y a => offset [h,w,c,n] [x,y,i,a]

def c04At (w c1 n1 size : Nat) : List Nat → Nat := at4 0 fun i x y a => idxFz w c1 n1 (cube size) i x y a

theorem hwcnAt_eq {index : List Nat} (inside : index ∈ indices [c,h,w,n]) :
    hwcnAt h w c n index = offset (permute [c,h,w,n] [1,2,0,3]) (permute index [1,2,0,3]) := by
  revert index
  simp only [forall_indices_cons,forall_indices_nil]
  intro i _ x _ y _ a _
  rfl

theorem loopOrder : [1,2,0,3].Perm (range 4) := by decide

theorem loop_mem {index : List Nat} (inside : index ∈ indices [c,h,w,n]) :
    permute index [1,2,0,3] ∈ indices (permute [c,h,w,n] [1,2,0,3]) := permute_mem loopOrder inside

theorem hwcnAt_lt {index : List Nat} (inside : index ∈ indices [c,h,w,n]) : hwcnAt h w c n index < [h,w,c,n].prod := by
  rw [hwcnAt_eq inside]
  exact offset_lt (loop_mem inside)

theorem nodup_hwcnAt (h w c n : Nat) : ((indices [c,h,w,n]).map (hwcnAt h w c n)).Nodup := by
  apply List.Nodup.map_on ?_ (nodup_indices _)
  intro index inside other member same
  rw [hwcnAt_eq inside,hwcnAt_eq member] at same
  have permuted := offset_injective (loop_mem inside) (loop_mem member) same
  rw [← permute_back loopOrder (length_of_mem inside),permuted,permute_back loopOrder (length_of_mem member)]

theorem idxFz_lt_iff {c1 i x y a : Nat} (aBound : a < n) :
    idxFz w c1 (blocks n 16) (cube size) i x y a < (c04Axes h w (blocks n 16) size).prod ↔
      x * w * c1 * 4 + y * 4 + i % 4 < columns h w size * cube size := by
  have cubePos := cube_pos size
  have kernel : a / 16 < blocks n 16 := div_lt_blocks (by decide) aBound
  rw [← Nat.div_lt_iff_lt_mul cubePos]
  unfold idxFz
  dsimp only
  generalize x * w * c1 * 4 + y * 4 + i % 4 = factor
  have rest : offset [blocks n 16,16,cube size] [a / 16,a % 16,factor % cube size] < [blocks n 16,16,cube size].prod :=
    offset_lt (by simp [indices,kernel,Nat.mod_lt a (by decide : 0 < 16),Nat.mod_lt factor cubePos])
  have place : factor / cube size * (cube size * 16 * blocks n 16) + a / 16 * (cube size * 16) + a % 16 * cube size +
      factor % cube size = factor / cube size * [blocks n 16,16,cube size].prod +
        offset [blocks n 16,16,cube size] [a / 16,a % 16,factor % cube size] := by
    simp only [offset,prod_cons,prod_nil]
    ring
  have total : (c04Axes h w (blocks n 16) size).prod = columns h w size * [blocks n 16,16,cube size].prod := by
    simp [c04Axes]
  rw [place,total]
  constructor
  · intro inside
    by_contra beyond
    have := Nat.mul_le_mul_right [blocks n 16,16,cube size].prod (Nat.le_of_not_lt beyond)
    omega
  · intro column
    have := Nat.mul_le_mul_right [blocks n 16,16,cube size].prod (Nat.succ_le_of_lt column)
    rw [Nat.succ_mul] at this
    omega

theorem idxFz_eq {i x y a : Nat} (four : i < 4) : idxFz w 1 (blocks n 16) (cube size) i x y a =
    offset (c04Axes h w (blocks n 16) size) (c04Place w size a i x y) := by
  have factor : x * w * 1 * 4 + y * 4 + i % 4 = (x * w + y) * 4 + i := by
    rw [Nat.mod_eq_of_lt four]
    ring
  unfold idxFz c04Place c04Axes
  rw [factor]
  simp only [offset,prod_cons,prod_nil]
  ring

end Places

section Reading

def chargedRead (data : List UInt8) (h w c n c1 n1 dstSize srcSize size : Nat) (state : List UInt8 × Int) (index : List Nat) :
    Except TransError (List UInt8 × Int) := do
  let dst ← memcpyS .failed data state.1 (ptrAdd dstSize (hwcnAt h w c n index * size)) state.2
    (ptrAdd srcSize (c04At w c1 n1 size index * size)) size
  .ok (dst,state.2 - size)

def plainRead (data : List UInt8) (h w c n c1 n1 dstSize srcSize size : Nat) (dst : List UInt8) (index : List Nat) :
    Except TransError (List UInt8) :=
  memcpyS .failed data dst (ptrAdd dstSize (hwcnAt h w c n index * size)) size
    (ptrAdd srcSize (c04At w c1 n1 size index * size)) size

theorem fzC04Loops_eq (data : List UInt8) (h w c n c1 n1 dstSize srcSize size : Nat) (state : List UInt8 × Int) :
    fzC04Loops data h w c n c1 n1 (cube size) dstSize srcSize size state =
      (indices [c,h,w,n]).foldlM (chargedRead data h w c n c1 n1 dstSize srcSize size) state := by
  rw [← nest_eq]
  simp only [nest,fzC04Loops]
  congr 1
  funext i
  congr 1
  funext x
  congr 1
  funext y
  congr 1
  funext a state
  have plain : x * w * c * n + y * c * n + i * n + a = offset [h,w,c,n] [x,y,i,a] := by
    simp only [offset,prod_cons,prod_nil]
    ring
  rw [plain]
  rfl

variable {c1 n1 : Nat} (small : [h,w,c,n].prod * size ≤ securecMemMaxLen)
include small

theorem fzC04Loops_account (c1 n1 : Nat) (sizePos : 0 < size) (srcSize : Nat) (dst : List UInt8) : ∃ left,
    fzC04Loops data h w c n c1 n1 (cube size) ([h,w,c,n].prod * size) srcSize size (dst,([h,w,c,n].prod * size : Nat)) =
      ((indices [c,h,w,n]).foldlM (plainRead data h w c n c1 n1 ([h,w,c,n].prod * size) srcSize size) dst).map
        fun next => (next,left) := by
  have charged : ∀ index ∈ indices [c,h,w,n], ∀ dst (room : Int), (size : Int) ≤ room → room ≤ securecMemMaxLen →
      chargedRead data h w c n c1 n1 ([h,w,c,n].prod * size) srcSize size (dst,room) index =
        (plainRead data h w c n c1 n1 ([h,w,c,n].prod * size) srcSize size dst index).map fun next => (next,room - size) := by
    intro index _ dst room enough limit
    rw [chargedRead,memcpyS_room sizePos enough limit]
    rfl
  have number : (size : Int) * (indices [c,h,w,n]).length ≤ ([h,w,c,n].prod * size : Nat) := by
    rw [length_indices,← Int.natCast_mul]
    apply Int.ofNat_le.mpr
    apply le_of_eq
    simp only [prod_cons,prod_nil]
    ring
  rw [fzC04Loops_eq]
  exact ⟨_,foldlM_account (Int.natCast_nonneg size) _ charged dst _ number (Int.ofNat_le.mpr small)⟩

theorem fzC04Loops_spec (sizePos : 0 < size) {items : Nat} (whole : data.length = items * size)
    (inside : ∀ index ∈ indices [c,h,w,n], c04At w c1 n1 size index < items) : ∃ final left,
    fzC04Loops data h w c n c1 n1 (cube size) ([h,w,c,n].prod * size) (items * size) size
      (replicate ([h,w,c,n].prod * size) 0,([h,w,c,n].prod * size : Nat)) = .ok (final,left) ∧
      final.length = [h,w,c,n].prod * size ∧ ∀ index ∈ indices [c,h,w,n],
        element size final (hwcnAt h w c n index) = element size data (c04At w c1 n1 size index) := by
  have writes : ∀ index ∈ indices [c,h,w,n], ∀ dst : List UInt8, dst.length = [h,w,c,n].prod * size →
      plainRead data h w c n c1 n1 ([h,w,c,n].prod * size) (items * size) size dst index =
        .ok (overwrite dst (hwcnAt h w c n index * size) (element size data (c04At w c1 n1 size index))) := by
    intro index member dst length
    have target : hwcnAt h w c n index * size + size ≤ [h,w,c,n].prod * size := cell_bound (hwcnAt_lt member)
    have source : c04At w c1 n1 size index * size + size ≤ items * size := cell_bound (inside index member)
    rw [plainRead,ptrAdd_of_lt (by omega),ptrAdd_of_lt (by omega),memcpyS_ok sizePos (by omega) (by omega) (by omega),element]
  obtain ⟨final,exec,length,written,_⟩ := foldlM_writes (indices [c,h,w,n]) (nodup_hwcnAt h w c n) (fun _ => hwcnAt_lt)
    (fun index member => length_element whole (inside index member)) writes (replicate ([h,w,c,n].prod * size) 0)
    length_replicate
  obtain ⟨left,account⟩ := fzC04Loops_account small c1 n1 sizePos (items * size)
    (replicate ([h,w,c,n].prod * size) 0)
  rw [exec] at account
  exact ⟨final,left,account,length,written⟩

theorem fzC04Loops_outside (sizePos : 0 < size) {items : Nat}
    {index : List Nat} (member : index ∈ indices [c,h,w,n]) (outside : items ≤ c04At w c1 n1 size index) (dst : List UInt8)
    (final : List UInt8 × Int) : fzC04Loops data h w c n c1 n1 (cube size) ([h,w,c,n].prod * size) (items * size) size
      (dst,([h,w,c,n].prod * size : Nat)) ≠ .ok final := by
  obtain ⟨left,account⟩ := fzC04Loops_account small c1 n1 sizePos (items * size) dst
  have null : ptrAdd (items * size) (c04At w c1 n1 size index * size) = none :=
    if_neg (Nat.not_lt.mpr (Nat.mul_le_mul_right size outside))
  have refused : ∀ dst, ∃ error,
      plainRead data h w c n c1 n1 ([h,w,c,n].prod * size) (items * size) size dst index = .error error := by
    intro dst
    refine ⟨.failed,?_⟩
    rw [plainRead,null,memcpyS]
    nofun
  obtain ⟨error,failed⟩ := foldlM_error member refused dst
  rw [account,failed]
  nofun

end Reading

section Backward

variable {groups : Int} (single : groups = 0 ∨ groups = 1) (hPos : 0 < h) (wPos : 0 < w) (cPos : 0 < c) (nPos : 0 < n)
  (sizePos : 0 < size) (c0 : Int)

theorem eMult_eq_one (cPos : 0 < c) (nPos : 0 < n) (single : groups = 0 ∨ groups = 1) :
    min (lcm ((lcm c (cube size : Nat)).tdiv c) ((lcm n kCubeSize).tdiv n)) (if groups = 0 then 1 else groups) = 1 := by
  have channels : (lcm c (cube size : Nat)).tdiv c = (Nat.lcm c (cube size) / c : Nat) := by
    rw [lcm_eq c (cube_pos size)]
    rfl
  have kernels : (lcm n kCubeSize).tdiv n = (Nat.lcm n 16 / n : Nat) := by
    have sixteen : lcm n kCubeSize = Nat.lcm n 16 := lcm_eq n (by decide)
    rw [sixteen]
    rfl
  have some : 0 < Nat.lcm (Nat.lcm c (cube size) / c) (Nat.lcm n 16 / n) :=
    Nat.lcm_pos (lcm_div_pos cPos (cube_pos size)) (lcm_div_pos nPos (by decide))
  rw [channels,kernels,lcm_eq _ (lcm_div_pos nPos (by decide))]
  rcases single with rfl | rfl
  · rw [if_pos rfl]
    omega
  · rw [if_neg (by decide)]
    omega

include single cPos nPos sizePos in
theorem transFormatFzC04ToHwcn_eq (tiled : List UInt8) (srcShape : List Int) :
    transFormatFzC04ToHwcn groups ⟨tiled,srcShape,[h,w,c,n].map ofNat,size,c0⟩ = (do
      let dstSize ← getTotalDataSize ([h,w,c,n].map ofNat) size
      let srcSize ← getTotalDataSize srcShape size
      if dstSize = 0 then .error .graphFailed
      else do
        let dst ← (clearedBuffer dstSize.toNat).mapError fun _ => .failed
        let final ← fzC04Loops tiled h w c n (blocks c (cube size)) (blocks n 16) (cube size) dstSize.toNat srcSize.toNat size
          (dst,dstSize)
        .ok final.1) := by
  have supported : checkGroupsSupport groups = .ok () := if_pos single
  have channels : ((ceil (1 * (c : Int)) (cube size : Nat) * (cube size : Nat)).tdiv (cube size : Nat)).toNat =
      blocks c (cube size) := by
    rw [one_mul,ceil_eq_blocks,Int.mul_tdiv_cancel _ (by have := cube_pos size; omega),toNat_natCast]
  have kernels : (ceil (1 * (n : Int)) kCubeSize).toNat = blocks n 16 := by
    rw [one_mul]
    rfl
  unfold transFormatFzC04ToHwcn
  dsimp only
  rw [show count ([h,w,c,n].map ofNat) 0 = h from rfl,show count ([h,w,c,n].map ofNat) 1 = w from rfl,
    show count ([h,w,c,n].map ofNat) 2 = c from rfl,show count ([h,w,c,n].map ofNat) 3 = n from rfl,
    if_neg (by omega),getCubeSizeByDataType_eq sizePos,supported,ok_bind,eMult_eq_one cPos nPos single,channels,kernels,
    toNat_natCast,toNat_natCast]

end Backward

section Outcomes

variable {groups : Int} (single : groups = 0 ∨ groups = 1) (hPos : 0 < h) (wPos : 0 < w) (cPos : 0 < c) (nPos : 0 < n)
  (sizePos : 0 < size) (c0 : Int)

include single hPos wPos cPos nPos sizePos

theorem c04_to_hwcn (accepted : transShapeNchwToFzC04 ([n,c,h,w].map ofNat) size =
      .ok ((c04Axes h w (blocks n 16) size).map ofNat))
    (small : [h,w,c,n].prod * size ≤ securecMemMaxLen) (bytes : c04Bytes h w n size < 2 ^ 63) {tiled : List UInt8}
    (whole : tiled.length = c04Bytes h w n size) (inside : ∀ index ∈ indices [c,h,w,n],
      c04At w (blocks c (cube size)) (blocks n 16) size index < (c04Axes h w (blocks n 16) size).prod) : ∃ final,
    transFormatFzC04To4D groups ⟨tiled,(c04Axes h w (blocks n 16) size).map ofNat,[h,w,c,n].map ofNat,size,c0⟩ =
      .ok final ∧ final.length = [h,w,c,n].prod * size ∧ ∀ index ∈ indices [c,h,w,n],
        element size final (hwcnAt h w c n index) =
          element size tiled (c04At w (blocks c (cube size)) (blocks n 16) size index) := by
  have mPos : 0 < blocks n 16 := blocks_pos (by decide) nPos
  have plainPos : 0 < [h,w,c,n].prod * size := by
    simp [hPos,wPos,cPos,nPos,sizePos]
  obtain ⟨final,left,exec,length,elements⟩ := fzC04Loops_spec small sizePos whole inside
  refine ⟨final,?_,length,elements⟩
  have plainTotal : getTotalDataSize ([h,w,c,n].map ofNat) size = .ok (([h,w,c,n].prod * size : Nat) : Int) :=
    getTotalDataSize_ok hPos wPos cPos nPos sizePos (lt_of_le_of_lt small (by decide))
  have tiledTotal : getTotalDataSize ((c04Axes h w (blocks n 16) size).map ofNat) size =
      .ok (((c04Axes h w (blocks n 16) size).prod * size : Nat) : Int) :=
    getTotalDataSize_ok (columns_pos size hPos wPos) mPos (by decide) (cube_pos size) sizePos bytes
  rw [transFormatFzC04To4D]
  dsimp only
  rw [transShapeFzC04_hwcn h w c n sizePos,accepted]
  change (if (c04Axes h w (blocks n 16) size).map ofNat ≠ (c04Axes h w (blocks n 16) size).map ofNat then _ else _) = _
  rw [if_neg (not_not.mpr rfl),transFormatFzC04ToHwcn_eq single cPos nPos sizePos c0]
  rw [plainTotal,ok_bind,tiledTotal,ok_bind,if_neg (by omega),toNat_natCast,toNat_natCast,clearedBuffer,
    if_neg (by omega)]
  change (do
    let final ← fzC04Loops tiled h w c n _ _ _ _ _ size _
    .ok final.1) = _
  rw [exec]
  rfl

theorem c04_to_hwcn_fails (bad : securecMemMaxLen < [h,w,c,n].prod * size ∨ ∃ index ∈ indices [c,h,w,n],
      (c04Axes h w (blocks n 16) size).prod ≤ c04At w (blocks c (cube size)) (blocks n 16) size index)
    (tiled final : List UInt8) (srcShape : List Int) :
    transFormatFzC04To4D groups ⟨tiled,srcShape,[h,w,c,n].map ofNat,size,c0⟩ ≠ .ok final := by
  have plainPos : 0 < [h,w,c,n].prod * size := by
    simp [hPos,wPos,cPos,nPos,sizePos]
  intro exec
  rw [transFormatFzC04To4D] at exec
  dsimp only at exec
  rw [transShapeFzC04_hwcn h w c n sizePos,transShapeNchwToFzC04_eq n c h w sizePos] at exec
  obtain ⟨expected,shape,exec⟩ := bind_ok exec
  obtain ⟨same,exec⟩ := check_ok exec
  have axes : srcShape = (c04Axes h w (blocks n 16) size).map ofNat := by
    rw [← not_not.mp same]
    split at shape
    · cases shape
    · split at shape
      · cases shape
        rfl
      · cases shape
  rw [axes,transFormatFzC04ToHwcn_eq single cPos nPos sizePos c0] at exec
  obtain ⟨dstSize,plainTotal,exec⟩ := bind_ok exec
  obtain ⟨srcSize,tiledTotal,exec⟩ := bind_ok exec
  have plainValue : dstSize = ([h,w,c,n].prod * size : Nat) := by
    rcases getTotalDataSize_cases h w c n size with known | failed
    · rw [← Except.ok.inj (known.symm.trans plainTotal)]
      simp only [prod_cons,prod_nil]
      push_cast
      ring
    · cases failed.symm.trans plainTotal
  have tiledValue : srcSize = ((c04Axes h w (blocks n 16) size).prod * size : Nat) := by
    rcases getTotalDataSize_cases (columns h w size) (blocks n 16) (16 : Nat) (cube size) size with known | failed
    · rw [← Except.ok.inj (known.symm.trans tiledTotal)]
      simp only [c04Axes,prod_cons,prod_nil]
      push_cast
      ring
    · cases failed.symm.trans tiledTotal
  obtain ⟨_,exec⟩ := check_ok exec
  rw [plainValue,tiledValue,toNat_natCast,toNat_natCast,clearedBuffer] at exec
  by_cases large : securecMemMaxLen < [h,w,c,n].prod * size
  · rw [if_pos large] at exec
    cases exec
  · obtain ⟨index,member,outside⟩ := bad.resolve_left large
    rw [if_neg large] at exec
    obtain ⟨_,dst,exec⟩ := bind_ok exec
    cases dst
    obtain ⟨pair,loops,_⟩ := bind_ok exec
    exact fzC04Loops_outside (by omega) sizePos member outside _ pair loops

end Outcomes

end GraphEngine.Formats
