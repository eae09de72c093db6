import GraphEngine.Lib.Placement
import GraphEngine.Formats.BlockedLayout

/-! The four transfers with NC1HWC0: which element goes where, and that nothing is lost. -/

namespace GraphEngine.Formats

open Lib.RowMajor Lib.ElementBuffer List

variable {n c h w c0 size : Nat} {data : List UInt8}

def blockedShape (n c h w c0 : Nat) : List Int := [n,ceil c c0,h,w,c0]

def toBlocked (srcShape : List Int) (n c h w c0 size : Nat) (data : List UInt8) : TransArgs :=
  ⟨data,srcShape,blockedShape n c h w c0,size,c0⟩

def fromBlocked (dstShape : List Int) (n c h w c0 size : Nat) (data : List UInt8) : TransArgs :=
  ⟨data,blockedShape n c h w c0,dstShape,size,c0⟩

theorem pos_of_items (some : 0 < n * c * h * w) : 0 < n ∧ 0 < c ∧ 0 < h ∧ 0 < w := by
  simpa only [Nat.pos_iff_ne_zero,ne_eq,mul_eq_zero,not_or,and_assoc] using some

theorem items_four (a b x y : Nat) : getItemNumByShape [a,b,x,y] = ([a,b,x,y].prod : Nat) := by
  simp [getItemNumByShape]
  ring

theorem items_blocked (n c h w c0 : Nat) :
    getItemNumByShape (blockedShape n c h w c0) = ([n,blocks c c0,h,w,c0].prod : Nat) := by
  simp [getItemNumByShape,blockedShape,ceil_eq_blocks]
  ring

theorem blocks_eq_zero (c0Pos : 0 < c0) : blocks c c0 = 0 ↔ c = 0 := by
  constructor
  · intro none
    by_contra some
    rw [blocks_eq (Nat.pos_of_ne_zero some) c0Pos] at none
    cases none
  · rintro rfl
    rfl

theorem prod_blocked_eq_zero (c0Pos : 0 < c0) : [n,blocks c c0,h,w,c0].prod = 0 ↔ [n,c,h,w].prod = 0 := by
  simp [blocks_eq_zero c0Pos,Nat.pos_iff_ne_zero.mp c0Pos]

theorem prod_nhwc_eq_zero (c0Pos : 0 < c0) : [n,blocks c c0,h,w,c0].prod = 0 ↔ [n,h,w,c].prod = 0 := by
  rw [prod_blocked_eq_zero c0Pos]
  simp only [prod_cons,prod_nil,mul_eq_zero]
  tauto

theorem convertWith_spec {getDstData : TransArgs → Nat → Nat → Except TransError (List UInt8)} {invalid : TransError}
    {args : TransArgs} {srcItems dstItems : Nat} {P : List UInt8 → Prop}
    (src : getItemNumByShape args.srcShape = srcItems) (dst : getItemNumByShape args.dstShape = dstItems)
    (sizeEq : args.size = size) (positive : 0 < size) (empties : dstItems = 0 ↔ srcItems = 0)
    (empty : dstItems = 0 → P []) (full : 0 < dstItems → ∃ result,
      getDstData args size (dstItems * size) = .ok result ∧ P result) :
    ∃ result, convertWith getDstData invalid args = .ok result ∧ P result := by
  have total : getItemNumByShape args.dstShape * args.size = (dstItems * size : Nat) := by
    rw [dst,sizeEq]
    push_cast
    rfl
  unfold convertWith
  rw [total,src]
  by_cases none : dstItems = 0
  · refine ⟨[],?_,empty none⟩
    simp [none,empties.mp none]
  · have some := mul_pos (Nat.pos_of_ne_zero none) positive
    obtain ⟨result,exec,holds⟩ := full (Nat.pos_of_ne_zero none)
    refine ⟨result,?_,holds⟩
    rw [if_neg (by omega),sizeEq]
    exact exec

/-- A buffer in NC1HWC0 that has the elements of another one, and zeros for the channels that do not exist. -/
structure Blocked (n c h w c0 size : Nat) (source : Nat → Nat → Nat → Nat → Nat) (data blocked : List UInt8) : Prop where
  length : blocked.length = [n,blocks c c0,h,w,c0].prod * size
  elements : ∀ a < n, ∀ b < blocks c c0, ∀ x < h, ∀ y < w, ∀ z < c0,
    element size blocked (offset [n,blocks c c0,h,w,c0] [a,b,x,y,z]) = blockedValue data size c c0 source a b x y z

def nchwPlace (n c h w : Nat) (a i x y : Nat) : Nat := offset [n,c,h,w] [a,i,x,y]

def nhwcPlace (n c h w : Nat) (a i x y : Nat) : Nat := offset [n,h,w,c] [a,x,y,i]

theorem nchwPlace_lt (n c h w : Nat) : ∀ a < n, ∀ i < c, ∀ x < h, ∀ y < w, nchwPlace n c h w a i x y < [n,c,h,w].prod :=
  fun _ aBound _ iBound _ xBound _ yBound => offset_lt (mem_indices_four aBound iBound xBound yBound)

theorem nhwcPlace_lt (n c h w : Nat) : ∀ a < n, ∀ i < c, ∀ x < h, ∀ y < w, nhwcPlace n c h w a i x y < [n,h,w,c].prod :=
  fun _ aBound _ iBound _ xBound _ yBound => offset_lt (mem_indices_four aBound xBound yBound iBound)

variable {d0 d1 d2 d3 a x y : Nat} {source : Nat → Nat → Nat → Nat → Nat} {blocked : List UInt8}

theorem Blocked.nil (none : [n,blocks c c0,h,w,c0].prod = 0) : Blocked n c h w c0 size source data [] := by
  refine ⟨by simp [none],?_⟩
  intro a aBound b bBound x xBound y yBound z zBound
  have := offset_lt (mem_indices_five aBound bBound xBound yBound zBound)
  omega

/-- What the transfers back to a plain format have in common: `source` is what the loops compute, `origin` what it is. -/
theorem convertBack_spec {getDstData : TransArgs → Nat → Nat → Except TransError (List UInt8)} {invalid : TransError}
    {args : TransArgs} {srcItems : Nat} (src : getItemNumByShape args.srcShape = srcItems)
    (dst : args.dstShape = [(d0 : Int),(d1 : Int),(d2 : Int),(d3 : Int)]) (sizeEq : args.size = size) (positive : 0 < size)
    (small : size ≤ securecMemMaxLen) (empties : [d0,d1,d2,d3].prod = 0 ↔ srcItems = 0)
    (whole : data.length = srcItems * size) (place source origin : Nat → Nat → Nat → Nat → Nat)
    (sourceEq : ∀ a b x y, source a b x y = origin a b x y)
    (inside : ∀ a < d0, ∀ b < d1, ∀ x < d2, ∀ y < d3, origin a b x y < srcItems) (memory : Nat → UInt8)
    (loops : getDstData args size ([d0,d1,d2,d3].prod * size) =
      forLoop d0 (fun a => forLoop d1 fun b => forLoop d2 fun x => forLoop d3 fun y dst =>
        copyElement data ([d0,d1,d2,d3].prod * size) (place a b x y * size) (source a b x y * size) size dst)
        (allocate memory ([d0,d1,d2,d3].prod * size))) (placeEq : ∀ a b x y, place a b x y = offset [d0,d1,d2,d3] [a,b,x,y]) :
    ∃ result, convertWith getDstData invalid args = .ok result ∧ result.length = [d0,d1,d2,d3].prod * size ∧
      ∀ a < d0, ∀ b < d1, ∀ x < d2, ∀ y < d3,
        element size result (offset [d0,d1,d2,d3] [a,b,x,y]) = element size data (origin a b x y) := by
  obtain rfl : source = origin := by
    funext a b x y
    exact sourceEq a b x y
  apply convertWith_spec src (dst ▸ items_four d0 d1 d2 d3) sizeEq positive empties
  · intro none
    refine ⟨by simp [none],?_⟩
    intro a aBound b bBound x xBound y yBound
    have := offset_lt (mem_indices_four aBound bBound xBound yBound)
    omega
  · intro _
    rw [loops]
    exact plainLoops_spec positive small whole d0 d1 d2 d3 place source placeEq inside memory rfl

section Transfers

variable (c0Pos : 0 < c0) (positive : 0 < size) (small : size ≤ securecMemMaxLen)
include c0Pos positive small

variable (memory : Nat → UInt8)

theorem convertNchwNc1hwc0_spec (whole : data.length = [n,c,h,w].prod * size) :
    ∃ blocked, convertNchwNc1hwc0 memory (toBlocked [n,c,h,w] n c h w c0 size data) = .ok blocked ∧
      Blocked n c h w c0 size (nchwPlace n c h w) data blocked := by
  apply convertWith_spec (items_four n c h w) (items_blocked n c h w c0) rfl positive (prod_blocked_eq_zero c0Pos)
    Blocked.nil
  intro some
  have cPos : 0 < c := by
    apply Nat.pos_of_ne_zero
    rintro rfl
    simp [blocks_zero] at some
  have inside := nchwPlace_lt n c h w
  have c1Eq : (((c : Int) - 1).tdiv c0 + 1).toNat = blocks c c0 := by
    rw [blocks,ceil,if_neg (by omega),if_pos (by omega)]
  have sourceEq : nchwPlace n c h w = fun a i x y => a * (c * (h * w)) + i * (h * w) + x * w + y := by
    funext a i x y
    simp only [nchwPlace,offset,prod_cons,prod_nil]
    ring
  rw [sourceEq] at inside ⊢
  obtain ⟨blocked,result,length,elements⟩ := blockedLoops_spec positive small whole n (blocks c c0) h w c0 c
    (fun a b x y z => z + (a * (blocks c c0 * (h * w * c0)) + b * (h * w * c0) + x * (w * c0) + y * c0))
    (by
      intro a b x y z
      simp only [offset,prod_cons,prod_nil]
      ring) _ inside memory rfl
  refine ⟨blocked,?_,length,elements⟩
  have c0Some : ¬(c0 : Int) ≤ 0 := by omega
  rw [← result,← c1Eq]
  exact if_neg c0Some

theorem convertNhwcNc1hwc0_spec (whole : data.length = [n,h,w,c].prod * size) :
    ∃ blocked, convertNhwcNc1hwc0 memory (toBlocked [n,h,w,c] n c h w c0 size data) = .ok blocked ∧
      Blocked n c h w c0 size (nhwcPlace n c h w) data blocked := by
  apply convertWith_spec (items_four n h w c) (items_blocked n c h w c0) rfl positive (prod_nhwc_eq_zero c0Pos) Blocked.nil
  intro _
  have inside := nhwcPlace_lt n c h w
  have sourceEq : nhwcPlace n c h w = fun a i x y => a * (h * (w * c)) + x * (w * c) + y * c + i := by
    funext a i x y
    simp only [nhwcPlace,offset,prod_cons,prod_nil]
    ring
  rw [sourceEq] at inside ⊢
  obtain ⟨blocked,result,length,elements⟩ := blockedLoops_spec positive small whole n (blocks c c0) h w c0 c
    (fun a b x y z => z + (a * (blocks c c0 * (h * (w * c0))) + b * (h * (w * c0)) + x * (w * c0) + y * c0))
    (by
      intro a b x y z
      simp only [offset,prod_cons,prod_nil]
      ring) _ inside memory rfl
  exact ⟨blocked,result,length,elements⟩

omit positive small in
theorem blockedPlace (a i x y : Nat) : offset [n,blocks c c0,h,w,c0] [a,i / c0,x,y,i % c0] =
    a * (blocks c c0 * (h * (w * c0))) + i / c0 * (h * (w * c0)) + x * (w * c0) + y * c0 + i % c0 ∧
    (a < n → i < c → x < h → y < w →
      offset [n,blocks c c0,h,w,c0] [a,i / c0,x,y,i % c0] < [n,blocks c c0,h,w,c0].prod) := by
  constructor
  · simp only [offset,prod_cons,prod_nil]
    ring
  · intro aBound iBound xBound yBound
    exact offset_lt (mem_indices_five aBound (div_lt_blocks c0Pos iBound) xBound yBound (Nat.mod_lt i c0Pos))

variable (whole : data.length = [n,blocks c c0,h,w,c0].prod * size)
include whole

theorem convertNc1hwc0Nchw_spec :
    ∃ result, convertNc1hwc0Nchw memory (fromBlocked [n,c,h,w] n c h w c0 size data) = .ok result ∧
      result.length = [n,c,h,w].prod * size ∧ ∀ a < n, ∀ i < c, ∀ x < h, ∀ y < w,
        element size result (nchwPlace n c h w a i x y) =
          element size data (offset [n,blocks c c0,h,w,c0] [a,i / c0,x,y,i % c0]) := by
  apply convertBack_spec (items_blocked n c h w c0) rfl rfl positive small (prod_blocked_eq_zero c0Pos).symm whole
    (fun a i x y => a * (c * (h * w)) + i * (h * w) + x * w + y) _ _ (fun a i x y => (blockedPlace c0Pos a i x y).1.symm)
    (fun a aBound i iBound x xBound y yBound => (blockedPlace c0Pos a i x y).2 aBound iBound xBound yBound) memory rfl
  intro a i x y
  simp only [offset,prod_cons,prod_nil]
  ring

theorem convertNc1hwc0Nhwc_spec :
    ∃ result, convertNc1hwc0Nhwc memory (fromBlocked [n,h,w,c] n c h w c0 size data) = .ok result ∧
      result.length = [n,h,w,c].prod * size ∧ ∀ a < n, ∀ x < h, ∀ y < w, ∀ i < c,
        element size result (nhwcPlace n c h w a i x y) =
          element size data (offset [n,blocks c c0,h,w,c0] [a,i / c0,x,y,i % c0]) := by
  apply convertBack_spec (items_blocked n c h w c0) rfl rfl positive small (prod_nhwc_eq_zero c0Pos).symm whole
    (fun a x y i => a * (h * (w * c)) + x * (w * c) + y * c + i) _ _ (fun a x y i => (blockedPlace c0Pos a i x y).1.symm)
    (fun a aBound x xBound y yBound i iBound => (blockedPlace c0Pos a i x y).2 aBound iBound xBound yBound) memory rfl
  intro a x y i
  simp only [offset,prod_cons,prod_nil]
  ring

end Transfers

theorem Blocked.at_channel (c0Pos : 0 < c0)
    (layout : Blocked n c h w c0 size source data blocked) {i : Nat} (aBound : a < n) (iBound : i < c) (xBound : x < h)
    (yBound : y < w) : element size blocked (offset [n,blocks c c0,h,w,c0] [a,i / c0,x,y,i % c0]) =
      element size data (source a i x y) := by
  have channel : i % c0 + i / c0 * c0 = i := by
    rw [add_comm]
    exact Nat.div_add_mod' i c0
  rw [layout.elements a aBound _ (div_lt_blocks c0Pos iBound) x xBound y yBound _ (Nat.mod_lt i c0Pos),blockedValue,channel,
    if_pos iBound]

def ZeroPadded (n c h w c0 size : Nat) (blocked : List UInt8) : Prop :=
  ∀ a < n, ∀ b < blocks c c0, ∀ x < h, ∀ y < w, ∀ z < c0, c ≤ b * c0 + z →
    element size blocked (offset [n,blocks c c0,h,w,c0] [a,b,x,y,z]) = List.replicate size 0

theorem Blocked.zeroPadded (layout : Blocked n c h w c0 size source data blocked) : ZeroPadded n c h w c0 size blocked := by
  intro a aBound b bBound x xBound y yBound z zBound beyond
  rw [layout.elements a aBound b bBound x xBound y yBound z zBound,blockedValue,if_neg (by omega)]

theorem ext_four {other : List UInt8} (whole : data.length = [d0,d1,d2,d3].prod * size)
    (same : other.length = [d0,d1,d2,d3].prod * size) (elements : ∀ a < d0, ∀ b < d1, ∀ x < d2, ∀ y < d3,
      element size data (offset [d0,d1,d2,d3] [a,b,x,y]) = element size other (offset [d0,d1,d2,d3] [a,b,x,y])) :
    data = other := by
  have all : ∀ index ∈ indices [d0,d1,d2,d3],
      element size data (offset [d0,d1,d2,d3] index) = element size other (offset [d0,d1,d2,d3] index) := by
    simpa only [forall_indices_cons,forall_indices_nil] using elements
  exact Lib.Placement.ext_indices whole same all

theorem Blocked.unique {source' : Nat → Nat → Nat → Nat → Nat} {data' blocked' : List UInt8}
    (layout : Blocked n c h w c0 size source data blocked) (layout' : Blocked n c h w c0 size source' data' blocked')
    (same : ∀ a < n, ∀ i < c, ∀ x < h, ∀ y < w, element size data (source a i x y) = element size data' (source' a i x y)) :
    blocked = blocked' := by
  have all : ∀ index ∈ indices [n,blocks c c0,h,w,c0],
      element size blocked (offset [n,blocks c c0,h,w,c0] index) =
        element size blocked' (offset [n,blocks c c0,h,w,c0] index) := by
    simp only [forall_indices_cons,forall_indices_nil]
    intro a aBound b bBound x xBound y yBound z zBound
    rw [layout.elements a aBound b bBound x xBound y yBound z zBound,
      layout'.elements a aBound b bBound x xBound y yBound z zBound,blockedValue,blockedValue]
    split
    · next channel => exact same a aBound _ channel x xBound y yBound
    · rfl
  exact Lib.Placement.ext_indices layout.length layout'.length all

end GraphEngine.Formats
