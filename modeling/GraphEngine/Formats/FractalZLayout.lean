import GraphEngine.Formats.FractalZ
import GraphEngine.Formats.Lossless

/-! Which element of FRACTAL_Z comes from where. NHWC and HWCN go through the destination in order; NCHW goes through it
fractal by fractal, and through each of these column by column. -/

namespace GraphEngine.Formats

open Lib.RowMajor Lib.ElementBuffer Lib.Placement List
open Nat (div_add_mod' mod_lt div_lt_of_lt_mul)

variable {n c h w c0 size : Nat} {data : List UInt8}

def fzAxes (n c h w c0 : Nat) : List Nat := [blocks c c0,h,w,blocks n 16 * 16,c0]

def fzShape (n c h w c0 : Nat) : List Int := [h * w * ceil c c0,ceil n kNiSize,kNiSize,c0]

theorem items_fz (n c h w c0 : Nat) : getItemNumByShape (fzShape n c h w c0) = ((fzAxes n c h w c0).prod : Nat) := by
  have kernels : ceil n kNiSize = blocks n 16 := ceil_eq_blocks n 16
  have sixteen : kNiSize = 16 := rfl
  rw [fzShape,kernels,ceil_eq_blocks,sixteen]
  simp only [getItemNumByShape,fzAxes,foldl_cons,foldl_nil,prod_cons,prod_nil]
  push_cast
  ring

structure FzHolds (n c h w c0 size : Nat) (value : Nat → Nat → Nat → Nat → List UInt8) (tiled : List UInt8) : Prop where
  length : tiled.length = (fzAxes n c h w c0).prod * size
  elements : ∀ b < blocks c c0, ∀ x < h, ∀ y < w, ∀ m < blocks n 16 * 16, ∀ z < c0,
    element size tiled (offset (fzAxes n c h w c0) [b,x,y,m,z]) =
      if b * c0 + z < c ∧ m < n then value m (b * c0 + z) x y else List.replicate size 0

variable {a x y : Nat} {value : Nat → Nat → Nat → Nat → List UInt8} {tiled : List UInt8}

theorem FzHolds.nil (none : (fzAxes n c h w c0).prod = 0) : FzHolds n c h w c0 size value [] := by
  refine ⟨by simp [none],?_⟩
  intro b bBound x xBound y yBound m mBound z zBound
  have : offset (fzAxes n c h w c0) [b,x,y,m,z] < (fzAxes n c h w c0).prod :=
    offset_lt (mem_indices_five bBound xBound yBound mBound zBound)
  omega

theorem FzHolds.unique {value' : Nat → Nat → Nat → Nat → List UInt8} {tiled' : List UInt8}
    (holds : FzHolds n c h w c0 size value tiled) (holds' : FzHolds n c h w c0 size value' tiled')
    (same : ∀ a < n, ∀ i < c, ∀ x < h, ∀ y < w, value a i x y = value' a i x y) : tiled = tiled' := by
  have all : ∀ index ∈ indices (fzAxes n c h w c0),
      element size tiled (offset (fzAxes n c h w c0) index) = element size tiled' (offset (fzAxes n c h w c0) index) := by
    simp only [fzAxes,forall_indices_cons,forall_indices_nil]
    intro b bBound x xBound y yBound m mBound z zBound
    rw [← fzAxes,holds.elements b bBound x xBound y yBound m mBound z zBound,
      holds'.elements b bBound x xBound y yBound m mBound z zBound]
    split
    · next there => exact same m there.2 _ there.1 x xBound y yBound
    · rfl
  exact ext_indices holds.length holds'.length all

theorem FzHolds.at_element
    (holds : FzHolds n c h w c0 size value tiled) (c0Pos : 0 < c0) {i : Nat} (aBound : a < n) (iBound : i < c)
    (xBound : x < h) (yBound : y < w) :
    element size tiled (offset (fzAxes n c h w c0) [i / c0,x,y,a,i % c0]) = value a i x y := by
  have room : n ≤ blocks n 16 * 16 := le_blocks (by decide) (Nat.zero_lt_of_lt aBound)
  rw [holds.elements _ (div_lt_blocks c0Pos iBound) x xBound y yBound a (by omega) _ (mod_lt i c0Pos),
    div_add_mod' i c0,if_pos ⟨iBound,aBound⟩]

section InOrder

variable {srcItems : Nat} (positive : 0 < size) (small : size ≤ securecMemMaxLen) (whole : data.length = srcItems * size)
  (memory : Nat → UInt8) {source : Nat → Nat → Nat → Nat → Nat}
  (inside : ∀ a < n, ∀ i < c, ∀ x < h, ∀ y < w, source a i x y < srcItems)

def fzValue (data : List UInt8) (size n c c0 : Nat) (source : Nat → Nat → Nat → Nat → Nat) (b x y m z : Nat) : List UInt8 :=
  if c ≤ b * c0 + z ∨ n ≤ m then List.replicate size 0 else element size data (source m (b * c0 + z) x y)

variable {b x y m z : Nat}

include whole inside in
theorem length_fzValue (xBound : x < h) (yBound : y < w) : (fzValue data size n c c0 source b x y m z).length = size := by
  unfold fzValue
  split
  · exact length_replicate
  · next there =>
    rw [not_or,not_le,not_le] at there
    exact length_element whole (inside m there.2 _ there.1 x xBound y yBound)

theorem fzValue_eq : fzValue data size n c c0 source b x y m z =
    if b * c0 + z < c ∧ m < n then element size data (source m (b * c0 + z) x y) else List.replicate size 0 := by
  unfold fzValue
  by_cases there : b * c0 + z < c ∧ m < n
  · rw [if_pos there,if_neg (by omega)]
  · rw [if_neg there,if_pos (by omega)]

def fzStep (data : List UInt8) (total size n c c0 : Nat) (source : Nat → Nat → Nat → Nat → Nat) (place b x y m z : Nat)
    (dst : List UInt8) : Except TransError (List UInt8) :=
  if c ≤ b * c0 + z ∨ n ≤ m then clearElement total (place * size) size dst
  else copyBytes data total (place * size) (source m (b * c0 + z) x y * size) size dst

include positive small whole inside in
theorem fzStep_ok {items place : Nat} (bound : place < items) (xBound : x < h) (yBound : y < w) (dst : List UInt8) :
    fzStep data (items * size) size n c c0 source place b x y m z dst =
      .ok (overwrite dst (place * size) (fzValue data size n c c0 source b x y m z)) := by
  unfold fzStep fzValue
  split
  · exact clearElement_ok positive small bound
  · next there =>
    rw [not_or,not_le,not_le] at there
    have fits : _ * size + size ≤ _ * size := cell_bound bound
    have read : _ * size + size ≤ _ * size := cell_bound (inside m there.2 _ there.1 x xBound y yBound)
    unfold copyBytes
    rw [if_neg (by omega),if_neg (by omega)]
    exact if_neg (by omega)

include positive small whole inside in
theorem fzBlockLoops_spec (srcShape : List Int) : ∃ tiled,
    fzBlockLoops memory ⟨data,srcShape,fzShape n c h w c0,size,c0⟩ n c h w source = .ok tiled ∧
      FzHolds n c h w c0 size (fun a i x y => element size data (source a i x y)) tiled := by
  unfold fzBlockLoops
  dsimp only
  rw [items_fz,Int.toNat_natCast,Int.toNat_natCast,Int.toNat_natCast]
  split
  · next none => exact ⟨[],rfl,FzHolds.nil ((Nat.mul_eq_zero.mp none).resolve_right (by omega))⟩
  · have length : ∀ index ∈ indices (fzAxes n c h w c0),
        (at5 [] (fzValue data size n c c0 source) index).length = size := by
      simp only [fzAxes,forall_indices_cons,forall_indices_nil]
      intro b _ x xBound y yBound m _ z _
      exact length_fzValue whole inside xBound yBound
    have writes : ∀ index ∈ indices (fzAxes n c h w c0), ∀ dst,
        at5 .ok (fun b x y m z => fzStep data ((fzAxes n c h w c0).prod * size) size n c c0 source
          (b * (h * (w * (blocks n 16 * 16 * c0))) + x * (w * (blocks n 16 * 16 * c0)) + y * (blocks n 16 * 16 * c0) + m * c0 + z)
          b x y m z) index dst = .ok (overwrite dst (offset (fzAxes n c h w c0) index * size)
            (at5 [] (fzValue data size n c c0 source) index)) := by
      simp only [fzAxes,forall_indices_cons,forall_indices_nil]
      intro b bBound x xBound y yBound m mBound z zBound dst
      have bound := offset_lt (mem_indices_five bBound xBound yBound mBound zBound)
      have place : offset [blocks c c0,h,w,blocks n 16 * 16,c0] [b,x,y,m,z] = b * (h * (w * (blocks n 16 * 16 * c0))) +
          x * (w * (blocks n 16 * 16 * c0)) + y * (blocks n 16 * 16 * c0) + m * c0 + z := by
        simp only [offset,prod_cons,prod_nil]
        ring
      dsimp only [at5]
      rw [← place]
      exact fzStep_ok positive small whole inside bound xBound yBound dst
    obtain ⟨tiled,result,finalLength,written⟩ := nest_writes (fzAxes n c h w c0) _ _ length writes memory
    refine ⟨tiled,result,finalLength,?_⟩
    intro b bBound x xBound y yBound m mBound z zBound
    rw [← fzValue_eq]
    exact written [b,x,y,m,z] (mem_indices_five bBound xBound yBound mBound zBound)

end InOrder

section ByFractal

def fractalOrder (n c h w c0 : Nat) : Layout [blocks c c0 * (h * w),blocks n 16,c0,16] (fzAxes n c h w c0) where
  place := at4 [] fun v f r l => [v / (h * w),v % (h * w) / w,v % (h * w) % w,f * 16 + l,r]
  inside := by
    simp only [fzAxes,forall_indices_cons,forall_indices_nil]
    intro v vBound f fBound r rBound l lBound
    have hwPos : 0 < h * w := Nat.pos_of_ne_zero fun zero => by simp [zero] at vBound
    have wPos : 0 < w := Nat.pos_of_mul_pos_left hwPos
    have rest := Nat.mod_lt v hwPos
    refine mem_indices_five ?_ ?_ ?_ ?_ rBound
    · exact Nat.div_lt_of_lt_mul (by rwa [Nat.mul_comm])
    · exact Nat.div_lt_of_lt_mul (by rw [Nat.mul_comm w h]; exact rest)
    · exact Nat.mod_lt _ wPos
    · exact (Nat.add_lt_add_left lBound _).trans_le (cell_bound fBound)
  injective := by
    simp only [forall_indices_cons,forall_indices_nil]
    intro v _ f _ r _ l lBound v' _ f' _ r' _ l' lBound' same
    simp only [at4,List.cons.injEq,and_true] at same
    obtain ⟨block,row,column,kernel,rfl⟩ := same
    have spot : v % (h * w) = v' % (h * w) := by
      rw [← Nat.div_add_mod' (v % (h * w)) w,row,column,Nat.div_add_mod']
    have vEq : v = v' := by
      rw [← Nat.div_add_mod' v (h * w),block,spot,Nat.div_add_mod']
    have fEq : f = f' := by
      have divided := congrArg (· / 16) kernel
      simpa only [(tile_parts lBound).1,(tile_parts lBound').1] using divided
    have lEq : l = l' := by
      rw [fEq] at kernel
      exact Nat.add_left_cancel kernel
    rw [vEq,fEq,lEq]

theorem fractalOrder_place (n c h w c0 v f r l : Nat) :
    offset (fzAxes n c h w c0) [v / (h * w),v % (h * w) / w,v % (h * w) % w,f * 16 + l,r] =
      (v * blocks n 16 + f) * (c0 * 16) + l * c0 + r := by
  have spot : v = v / (h * w) * (h * w) + (v % (h * w) / w * w + v % (h * w) % w) := by
    rw [div_add_mod' (v % (h * w)) w,div_add_mod']
  simp only [fzAxes,offset,prod_cons,prod_nil]
  conv_rhs => rw [spot]
  ring

theorem fractalOrder_onto {b x y m z : Nat} (bBound : b < blocks c c0) (xBound : x < h) (yBound : y < w)
    (mBound : m < blocks n 16 * 16) (zBound : z < c0) : ∃ v f l,
      [v,f,z,l] ∈ indices [blocks c c0 * (h * w),blocks n 16,c0,16] ∧ v / (h * w) = b ∧ v % (h * w) / w = x ∧
      v % (h * w) % w = y ∧ f * 16 + l = m := by
  have within : x * w + y < h * w := by
    have := Nat.mul_le_mul_right w (Nat.succ_le_of_lt xBound)
    rw [Nat.succ_mul] at this
    omega
  have hwPos := Nat.zero_lt_of_lt within
  have wPos := Nat.zero_lt_of_lt yBound
  refine ⟨b * (h * w) + (x * w + y),m / 16,m % 16,?_,?_,?_,?_,div_add_mod' m 16⟩
  · apply mem_indices_four
    · have := Nat.mul_le_mul_right (h * w) (Nat.succ_le_of_lt bBound)
      rw [Nat.succ_mul] at this
      omega
    · omega
    · exact zBound
    · omega
  · rw [mul_comm,Nat.mul_add_div hwPos,Nat.div_eq_of_lt within,add_zero]
  · rw [mul_comm,Nat.mul_add_mod,Nat.mod_eq_of_lt within,mul_comm x,Nat.mul_add_div wPos,Nat.div_eq_of_lt yBound,
      add_zero]
  · rw [mul_comm,Nat.mul_add_mod,Nat.mod_eq_of_lt within,mul_comm x,Nat.mul_add_mod,Nat.mod_eq_of_lt yBound]

theorem fractal_source (n c h w c0 v f r l : Nat) :
    f * (c * (h * w)) * 16 + v % (h * w) + v / (h * w) * (h * w * c0) + r * (h * w) + c * (h * w) * l =
      nchwPlace n c h w (f * 16 + l) (v / (h * w) * c0 + r) (v % (h * w) / w) (v % (h * w) % w) := by
  have spot := div_add_mod' (v % (h * w)) w
  simp only [nchwPlace,offset,prod_cons,prod_nil]
  conv_lhs => rw [← spot]
  ring

def fractalStep (data : List UInt8) (total size n c h w c0 v f r l : Nat) (dst : List UInt8) : Except TransError (List UInt8) :=
  if n ≤ f * 16 + l ∨ n * (c * (h * w)) ≤ f * (c * (h * w)) * 16 + v % (h * w) + v / (h * w) * (h * w * c0) + r * (h * w) +
      c * (h * w) * l ∨ c ≤ v / (h * w) * c0 + r then
    clearElement total (((v * blocks n 16 + f) * (c0 * 16) + l * c0 + r) * size) size dst
  else copyBytes data total (((v * blocks n 16 + f) * (c0 * 16) + l * c0 + r) * size)
    ((f * (c * (h * w)) * 16 + v % (h * w) + v / (h * w) * (h * w * c0) + r * (h * w) + c * (h * w) * l) * size) size dst

theorem fractalStep_eq {total v f r l : Nat} (spotted : v % (h * w) < h * w) (wPos : 0 < w) (dst : List UInt8) :
    fractalStep data total size n c h w c0 v f r l dst = fzStep data total size n c c0 (nchwPlace n c h w)
      (offset (fzAxes n c h w c0) [v / (h * w),v % (h * w) / w,v % (h * w) % w,f * 16 + l,r])
      (v / (h * w)) (v % (h * w) / w) (v % (h * w) % w) (f * 16 + l) r dst := by
  rw [fractalStep,fractal_source n c h w c0,fractalOrder_place,fzStep]
  have xBound : v % (h * w) / w < h := div_lt_of_lt_mul (by rw [mul_comm w h]; exact spotted)
  have yBound : v % (h * w) % w < w := mod_lt _ wPos
  by_cases there : v / (h * w) * c0 + r < c ∧ f * 16 + l < n
  · have below : nchwPlace n c h w (f * 16 + l) (v / (h * w) * c0 + r) (v % (h * w) / w) (v % (h * w) % w) <
        [n,c,h,w].prod := offset_lt (mem_indices_four there.2 there.1 xBound yBound)
    have items : [n,c,h,w].prod = n * (c * (h * w)) := by
      simp
    rw [if_neg (by omega),if_neg (by omega)]
  · rw [if_pos (by omega),if_pos (by omega)]

def fractalValue (data : List UInt8) (size n c h w c0 : Nat) : List Nat → List UInt8 :=
  at4 [] fun v f r l => fzValue data size n c c0 (nchwPlace n c h w) (v / (h * w)) (v % (h * w) / w) (v % (h * w) % w)
    (f * 16 + l) r

theorem transFormatFromNchwToFz_eq (memory : Nat → UInt8) (n c h w c0 size : Nat) (data : List UInt8) (dstShape : List Int) :
    transFormatFromNchwToFz memory ⟨data,[n,c,h,w],dstShape,size,c0⟩ =
      if blocks n 16 * (blocks c c0 * (h * w)) * (c0 * 16) * size = 0 then .ok []
      else nest [blocks c c0 * (h * w),blocks n 16,c0,16]
        (at4 .ok (fractalStep data (blocks n 16 * (blocks c c0 * (h * w)) * (c0 * 16) * size) size n c h w c0))
        (allocate memory (blocks n 16 * (blocks c c0 * (h * w)) * (c0 * 16) * size)) :=
  rfl

theorem transFormatFromNchwToFz_spec (positive : 0 < size) (small : size ≤ securecMemMaxLen) (memory : Nat → UInt8)
    (whole : data.length = [n,c,h,w].prod * size) (dstShape : List Int) : ∃ tiled,
    transFormatFromNchwToFz memory ⟨data,[n,c,h,w],dstShape,size,c0⟩ = .ok tiled ∧
      FzHolds n c h w c0 size (fun a i x y => element size data (nchwPlace n c h w a i x y)) tiled := by
  have inside := nchwPlace_lt n c h w
  have total : blocks n 16 * (blocks c c0 * (h * w)) * (c0 * 16) * size = (fzAxes n c h w c0).prod * size := by
    simp only [fzAxes,prod_cons,prod_nil]
    ring
  rw [transFormatFromNchwToFz_eq,total]
  split
  · next none => exact ⟨[],rfl,FzHolds.nil ((Nat.mul_eq_zero.mp none).resolve_right (by omega))⟩
  · have spots : ∀ v < blocks c c0 * (h * w), v % (h * w) < h * w ∧ 0 < w := by
      intro v vBound
      have hwPos : 0 < h * w := Nat.pos_of_ne_zero fun zero => by simp [zero] at vBound
      exact ⟨mod_lt v hwPos,Nat.pos_of_mul_pos_left hwPos⟩
    have lengths : ∀ index ∈ indices [blocks c c0 * (h * w),blocks n 16,c0,16],
        (fractalValue data size n c h w c0 index).length = size := by
      simp only [forall_indices_cons,forall_indices_nil]
      intro v vBound f _ r _ l _
      obtain ⟨spotted,wPos⟩ := spots v vBound
      exact length_fzValue whole inside (div_lt_of_lt_mul (by rw [mul_comm w h]; exact spotted)) (mod_lt _ wPos)
    have writes : ∀ index ∈ indices [blocks c c0 * (h * w),blocks n 16,c0,16], ∀ dst : List UInt8,
        dst.length = (fzAxes n c h w c0).prod * size →
        at4 .ok (fractalStep data ((fzAxes n c h w c0).prod * size) size n c h w c0) index dst =
          .ok (overwrite dst (offset (fzAxes n c h w c0) ((fractalOrder n c h w c0).place index) * size)
            (fractalValue data size n c h w c0 index)) := by
      simp only [forall_indices_cons,forall_indices_nil]
      intro v vBound f fBound r rBound l lBound dst _
      obtain ⟨spotted,wPos⟩ := spots v vBound
      have place := offset_lt ((fractalOrder n c h w c0).inside _ (mem_indices_four vBound fBound rBound lBound))
      refine (fractalStep_eq spotted wPos dst).trans ?_
      exact fzStep_ok positive small whole inside place
        (div_lt_of_lt_mul (by rw [mul_comm w h]; exact spotted)) (mod_lt _ wPos) dst
    have apart := (fractalOrder n c h w c0).cells_apart
    rw [Layout.cells_fst] at apart
    obtain ⟨tiled,result,finalLength,written,_⟩ := foldlM_writes (indices [blocks c c0 * (h * w),blocks n 16,c0,16]) apart
      (fun index member => offset_lt ((fractalOrder n c h w c0).inside index member)) lengths writes
      (allocate memory ((fzAxes n c h w c0).prod * size)) (length_allocate memory _)
    rw [← nest_eq] at result
    refine ⟨tiled,result,finalLength,?_⟩
    intro b bBound x xBound y yBound m mBound z zBound
    obtain ⟨v,f,l,member,rfl,rfl,rfl,rfl⟩ := fractalOrder_onto bBound xBound yBound mBound zBound
    rw [← fzValue_eq]
    exact written _ member

end ByFractal

end GraphEngine.Formats
