import Mathlib.Algebra.Order.BigOperators.GroupWithZero.List
import GraphEngine.Formats.Transposition

/-! A tensor comes back from NC1HWC0 as it was, and the two ways from NCHW to NC1HWC0 agree. The checks of the arguments
let every tensor with elements through whose padded size is within the limit. -/

namespace GraphEngine.Formats

open Lib.RowMajor Lib.ElementBuffer List

variable {n c h w c0 size : Nat} {data : List UInt8}

section

variable (shape : List Nat)
include shape

variable (positive : ∀ d ∈ shape, 0 < d)
include positive

theorem isShapeValidFrom_of_le (num : Nat)
    (limit : (num * shape.prod : Nat) ≤ kShapeItemNumMAX) : isShapeValidFrom num (shape.map Int.ofNat) := by
  induction shape generalizing num with
  | nil => rfl
  | cons d shape ih =>
    have dPos := positive d mem_cons_self
    have later : ∀ e ∈ shape, 0 < e := fun e there => positive e (mem_cons_of_mem d there)
    rw [prod_cons,← mul_assoc] at limit
    have restPos : 0 < shape.prod := prod_pos later
    have step : num * d ≤ num * d * shape.prod := Nat.le_mul_of_pos_right _ restPos
    have fits : (num : Int) ≤ kShapeItemNumMAX.tdiv d := by
      rw [Int.tdiv_eq_ediv_of_nonneg (by decide),Int.le_ediv_iff_mul_le (by omega)]
      have := Int.ofNat_le.mpr step
      push_cast at this limit
      omega
    rw [map_cons,isShapeValidFrom,if_neg (by simp),if_neg fun tooMany => absurd tooMany.2 (not_lt.mpr fits)]
    exact ih later (num * d) limit

theorem isShapeValid_of_le (some : shape ≠ [])
    (limit : (shape.prod : Nat) ≤ kShapeItemNumMAX) : isShapeValid (shape.map Int.ofNat) := by
  have first := isShapeValidFrom_of_le shape positive 1 (by rwa [one_mul])
  simpa [isShapeValid,some] using first

theorem le_of_isShapeValidFrom (num : Nat) (small : num ≤ kShapeItemNumMAX)
    (valid : isShapeValidFrom num (shape.map Int.ofNat)) : (num * shape.prod : Nat) ≤ kShapeItemNumMAX := by
  induction shape generalizing num with
  | nil => simpa using small
  | cons d shape ih =>
    have dPos := positive d mem_cons_self
    rw [map_cons,isShapeValidFrom,if_neg (by simp)] at valid
    split at valid
    · cases valid
    · next fits =>
      have room : (num : Int) ≤ kShapeItemNumMAX.tdiv d := not_lt.mp fun less => fits ⟨by simp; omega,less⟩
      rw [Int.tdiv_eq_ediv_of_nonneg (by decide),Int.le_ediv_iff_mul_le (by omega)] at room
      have rest := ih (fun e there => positive e (mem_cons_of_mem d there)) (num * d) (by push_cast; exact room)
        (by push_cast; exact valid)
      rwa [prod_cons,← mul_assoc]

theorem isShapeValid_iff (some : shape ≠ []) :
    isShapeValid (shape.map Int.ofNat) ↔ (shape.prod : Nat) ≤ kShapeItemNumMAX := by
  constructor
  · intro valid
    have from1 : isShapeValidFrom (1 : Nat) (shape.map Int.ofNat) := by
      simpa [isShapeValid,some] using valid
    have := le_of_isShapeValidFrom shape positive 1 (by decide) from1
    rwa [one_mul] at this
  · exact isShapeValid_of_le shape positive some

theorem checkShapeValid_of_le (some : shape ≠ [])
    (limit : (shape.prod : Nat) ≤ kShapeItemNumMAX) : checkShapeValid (shape.map Int.ofNat) shape.length := by
  have length : 0 < shape.length := length_pos_iff.mpr some
  unfold checkShapeValid
  rw [if_neg (by simp; omega)]
  exact isShapeValid_of_le shape positive some limit

end

theorem blocks_pos {n c0 : Nat} (c0Pos : 0 < c0) (nPos : 0 < n) : 0 < blocks n c0 := by
  rw [blocks_eq nPos c0Pos]
  exact Nat.succ_pos _

theorem le_blocks (c0Pos : 0 < c0) (cPos : 0 < c) : c ≤ blocks c c0 * c0 := by
  rw [blocks_eq cPos c0Pos,Nat.succ_mul]
  have := Nat.div_add_mod' (c - 1) c0
  have := Nat.mod_lt (c - 1) c0Pos
  omega

theorem items_le (c0Pos : 0 < c0) (cPos : 0 < c) : n * c * h * w ≤ n * blocks c c0 * h * w * c0 := by
  calc n * c * h * w ≤ n * (blocks c c0 * c0) * h * w := by
        gcongr
        exact le_blocks c0Pos cPos
    _ = n * blocks c c0 * h * w * c0 := by ring

section Checks

variable (nPos : 0 < n) (cPos : 0 < c) (hPos : 0 < h) (wPos : 0 < w)
include nPos cPos hPos wPos

theorem plainShape_valid (limit : (n * c * h * w : Nat) ≤ kShapeItemNumMAX) :
    checkShapeValid [n,c,h,w] 4 ∧ checkShapeValid [n,h,w,c] 4 ∧ checkShapeValid [h,w,c,n] 4 := by
  have within : ∀ shape : List Nat, shape ≠ [] → (∀ d ∈ shape, 0 < d) → shape.prod = n * c * h * w →
      checkShapeValid (shape.map Int.ofNat) shape.length := by
    intro shape some positive items
    exact checkShapeValid_of_le shape positive some (by omega)
  refine ⟨within [n,c,h,w] (by simp) (by simp [*]) ?_,within [n,h,w,c] (by simp) (by simp [*]) ?_,
    within [h,w,c,n] (by simp) (by simp [*]) ?_⟩
  all_goals
    simp only [prod_cons,prod_nil]
    ring

variable (c0Pos : 0 < c0) (limit : (n * blocks c c0 * h * w * c0 : Nat) ≤ kShapeItemNumMAX)
include c0Pos limit

theorem blockedShape_valid : checkShapeValid (blockedShape n c h w c0) 5 := by
  have blocksPos : 0 < blocks c c0 := Nat.pos_of_ne_zero fun none => (blocks_eq_zero c0Pos).mp none ▸ cPos |>.false
  have valid := checkShapeValid_of_le [n,blocks c c0,h,w,c0] (by simp [*]) (by simp)
    (by simpa [mul_assoc] using limit)
  rw [blockedShape,ceil_eq_blocks]
  exact valid

theorem transShape_ok (sizeInt : Int) : transShapeToNc1hwc0 n c h w sizeInt c0 = .ok (blockedShape n c h w c0) := by
  have valid := blockedShape_valid nPos cPos hPos wPos c0Pos limit
  have c0Some : ¬(c0 : Int) ≤ 0 := by omega
  rw [transShapeToNc1hwc0,if_neg c0Some,if_neg c0Some]
  exact if_pos valid

theorem transFormat_eq_convert (positive : 0 < size) (memory : Nat → UInt8) (data : List UInt8) :
    transFormatNchwNc1hwc0 memory (toBlocked [n,c,h,w] n c h w c0 size data) =
      convertNchwNc1hwc0 memory (toBlocked [n,c,h,w] n c h w c0 size data) ∧
    transFormatNhwcNc1hwc0 memory (toBlocked [n,h,w,c] n c h w c0 size data) =
      convertNhwcNc1hwc0 memory (toBlocked [n,h,w,c] n c h w c0 size data) ∧
    transFormatNc1hwc0Nchw memory (fromBlocked [n,c,h,w] n c h w c0 size data) =
      convertNc1hwc0Nchw memory (fromBlocked [n,c,h,w] n c h w c0 size data) ∧
    transFormatNc1hwc0Nhwc memory (fromBlocked [n,h,w,c] n c h w c0 size data) =
      convertNc1hwc0Nhwc memory (fromBlocked [n,h,w,c] n c h w c0 size data) := by
  have blockedValid := blockedShape_valid nPos cPos hPos wPos c0Pos limit
  have small : n * c * h * w ≤ n * blocks c c0 * h * w * c0 := items_le c0Pos cPos
  obtain ⟨nchwValid,nhwcValid,-⟩ := plainShape_valid nPos cPos hPos wPos (by omega)
  have c0Some : ¬(c0 : Int) ≤ 0 := by omega
  have sizeSome : ¬(size : Int) ≤ 0 := by omega
  have trans := transShape_ok nPos cPos hPos wPos c0Pos limit size
  have toNchw : checkArgsForNchwToNc1hwc0 (toBlocked [n,c,h,w] n c h w c0 size data) = .ok () := by
    have shape : transShapeNchwToNc1hwc0 [n,c,h,w] size c0 = .ok (blockedShape n c h w c0) := by
      rw [transShapeNchwToNc1hwc0,if_neg c0Some,if_neg c0Some,if_neg (not_not.mpr nchwValid)]
      exact trans
    rw [checkArgsForNchwToNc1hwc0]
    dsimp only [toBlocked]
    rw [shape]
    exact if_neg (by simp)
  have toNhwc : checkArgsForNhwcToNc1hwc0 (toBlocked [n,h,w,c] n c h w c0 size data) = .ok () := by
    have shape : transShapeNhwcToNc1hwc0 [n,h,w,c] size c0 = .ok (blockedShape n c h w c0) := trans
    refine (if_neg sizeSome).trans ((if_neg (not_not.mpr nhwcValid)).trans ((if_neg (not_not.mpr blockedValid)).trans ?_))
    dsimp only [toBlocked]
    rw [shape]
    exact if_neg (by simp)
  have fromNchw : checkArgsForNc1hwc0ToNchw (fromBlocked [n,c,h,w] n c h w c0 size data) = .ok () := by
    refine (if_neg sizeSome).trans ((if_neg (not_not.mpr blockedValid)).trans ((if_neg (not_not.mpr nchwValid)).trans
      ((if_neg c0Some).trans (if_neg ?_))))
    simp [fromBlocked,blockedShape,dim]
  have fromNhwc : checkArgsForNc1hwc0ToNhwc (fromBlocked [n,h,w,c] n c h w c0 size data) = .ok () := by
    refine (if_neg sizeSome).trans ((if_neg (not_not.mpr blockedValid)).trans ((if_neg (not_not.mpr nhwcValid)).trans
      ((if_neg c0Some).trans (if_neg ?_))))
    simp [fromBlocked,blockedShape,dim]
  refine ⟨?_,?_,?_,?_⟩
  · rw [transFormatNchwNc1hwc0,toNchw]
    rfl
  · rw [transFormatNhwcNc1hwc0,toNhwc]
    rfl
  · rw [transFormatNc1hwc0Nchw,fromNchw]
    rfl
  · rw [transFormatNc1hwc0Nhwc,fromNhwc]
    rfl

end Checks

theorem four_items (a b x y : Nat) : a * b * x * y * size = [a,b,x,y].prod * size := by
  simp only [prod_cons,prod_nil]
  ring

/-- NC1HWC0 keeps all bytes of NCHW and of NHWC and has zeros elsewhere, and the way from NCHW through NHWC makes no
difference. Every tensor with a padded size within the limit passes all checks. -/
theorem nc1hwc0_lossless (memory memory' memory'' : Nat → UInt8) (n c h w : Nat) {c0 size : Nat} (c0Pos : 0 < c0)
    (sizePos : 0 < size) (sizeFits : size ≤ securecMemMaxLen) :
    (∀ data, data.length = n * c * h * w * size → ∃ blocked nhwc,
      convertNchwNc1hwc0 memory (toBlocked [n,c,h,w] n c h w c0 size data) = .ok blocked ∧
      convertNc1hwc0Nchw memory' (fromBlocked [n,c,h,w] n c h w c0 size blocked) = .ok data ∧
      ZeroPadded n c h w c0 size blocked ∧
      transFormatTranspose memory' .nchw .nhwc ⟨data,[n,c,h,w],[n,h,w,c],size,c0⟩ = .ok nhwc ∧
      convertNhwcNc1hwc0 memory'' (toBlocked [n,h,w,c] n c h w c0 size nhwc) = .ok blocked) ∧
    (∀ data, data.length = n * h * w * c * size → ∃ blocked,
      convertNhwcNc1hwc0 memory (toBlocked [n,h,w,c] n c h w c0 size data) = .ok blocked ∧
      convertNc1hwc0Nhwc memory' (fromBlocked [n,h,w,c] n c h w c0 size blocked) = .ok data ∧
      ZeroPadded n c h w c0 size blocked) ∧
    (0 < n * c * h * w → (n * blocks c c0 * h * w * c0 : Nat) ≤ kShapeItemNumMAX → ∀ data,
      transFormatNchwNc1hwc0 memory (toBlocked [n,c,h,w] n c h w c0 size data) =
        convertNchwNc1hwc0 memory (toBlocked [n,c,h,w] n c h w c0 size data) ∧
      transFormatNhwcNc1hwc0 memory (toBlocked [n,h,w,c] n c h w c0 size data) =
        convertNhwcNc1hwc0 memory (toBlocked [n,h,w,c] n c h w c0 size data) ∧
      transFormatNc1hwc0Nchw memory (fromBlocked [n,c,h,w] n c h w c0 size data) =
        convertNc1hwc0Nchw memory (fromBlocked [n,c,h,w] n c h w c0 size data) ∧
      transFormatNc1hwc0Nhwc memory (fromBlocked [n,h,w,c] n c h w c0 size data) =
        convertNc1hwc0Nhwc memory (fromBlocked [n,h,w,c] n c h w c0 size data)) := by
  refine ⟨?_,?_,?_⟩
  · intro data whole
    rw [four_items] at whole
    obtain ⟨blocked,direct,layout⟩ := convertNchwNc1hwc0_spec c0Pos sizePos sizeFits memory whole
    obtain ⟨back,restored,length,elements⟩ := convertNc1hwc0Nchw_spec c0Pos sizePos sizeFits memory' layout.length
    obtain ⟨nhwc,transposed,nhwcLength,moved⟩ := transFormatTranspose_nhwc sizePos sizeFits memory' c0 whole
    obtain ⟨blocked',through,layout'⟩ := convertNhwcNc1hwc0_spec c0Pos sizePos sizeFits memory'' nhwcLength
    have same : blocked' = blocked := layout'.unique layout moved
    have original : back = data := by
      apply ext_four length whole
      intro a aBound i iBound x xBound y yBound
      exact (elements a aBound i iBound x xBound y yBound).trans (layout.at_channel c0Pos aBound iBound xBound yBound)
    exact ⟨blocked,nhwc,direct,original ▸ restored,layout.zeroPadded,transposed,same ▸ through⟩
  · intro data whole
    rw [four_items] at whole
    obtain ⟨blocked,direct,layout⟩ := convertNhwcNc1hwc0_spec c0Pos sizePos sizeFits memory whole
    obtain ⟨back,restored,length,elements⟩ := convertNc1hwc0Nhwc_spec c0Pos sizePos sizeFits memory' layout.length
    have original : back = data := by
      apply ext_four length whole
      intro a aBound x xBound y yBound i iBound
      exact (elements a aBound x xBound y yBound i iBound).trans (layout.at_channel c0Pos aBound iBound xBound yBound)
    exact ⟨blocked,direct,original ▸ restored,layout.zeroPadded⟩
  · intro some limit
    obtain ⟨nPos,cPos,hPos,wPos⟩ := pos_of_items some
    exact transFormat_eq_convert nPos cPos hPos wPos c0Pos limit sizePos memory

theorem nc1hwc0_lossless_six : ∃ blocked nhwc,
    convertNchwNc1hwc0 (fun _ => 7) (toBlocked [(1 : Nat),(3 : Nat),(1 : Nat),(2 : Nat)] 1 3 1 2 2 1 [1,2,3,4,5,6]) =
      .ok blocked ∧
    convertNc1hwc0Nchw (fun _ => 8) (fromBlocked [(1 : Nat),(3 : Nat),(1 : Nat),(2 : Nat)] 1 3 1 2 2 1 blocked) =
      .ok [1,2,3,4,5,6] ∧
    ZeroPadded 1 3 1 2 2 1 blocked ∧
    transFormatTranspose (fun _ => 8) .nchw .nhwc ⟨[1,2,3,4,5,6],[(1 : Nat),(3 : Nat),(1 : Nat),(2 : Nat)],
      [(1 : Nat),(1 : Nat),(2 : Nat),(3 : Nat)],(1 : Nat),(2 : Nat)⟩ = .ok nhwc ∧
    convertNhwcNc1hwc0 (fun _ => 9) (toBlocked [(1 : Nat),(1 : Nat),(2 : Nat),(3 : Nat)] 1 3 1 2 2 1 nhwc) =
      .ok blocked :=
  (nc1hwc0_lossless (fun _ => 7) (fun _ => 8) (fun _ => 9) 1 3 1 2 (by decide) (by decide) (by decide)).1
    [1,2,3,4,5,6] rfl

/-- Three channels in blocks of two. -/
example : transFormatNchwNc1hwc0 (fun _ => 7) ⟨[1,2,3,4,5,6],[1,3,1,2],[1,2,1,2,2],1,2⟩ = .ok [1,3,2,4,5,0,6,0] := by
  rfl

end GraphEngine.Formats
