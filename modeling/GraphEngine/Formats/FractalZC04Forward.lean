import GraphEngine.Formats.FractalZC04
import GraphEngine.Formats.Lossless
import GraphEngine.Formats.PermutedTensor
import GraphEngine.Lib.Outcome

/-! The way to FRACTAL_Z_C04, step by step: what each buffer holds, by the elements of the one before. -/

namespace GraphEngine.Formats

open Lib.RowMajor Lib.ElementBuffer Lib.Placement Lib.AxisPermutation Lib List
open Layout (cornerRuns)

section Copies

variable {failure : TransError} {data dst : List UInt8} {size : Nat}

theorem memcpyS_room {target source : Option Nat} {room : Int} (positive : 0 < size) (enough : (size : Int) ≤ room)
    (small : room ≤ securecMemMaxLen) :
    memcpyS failure data dst target room source size = memcpyS failure data dst target size source size := by
  unfold memcpyS
  cases target with
  | none => rfl
  | some target =>
    cases source with
    | none => rfl
    | some source =>
      dsimp only
      rw [if_neg (by omega),if_neg (by omega : ¬((size : Int) ≤ 0 ∨ (securecMemMaxLen : Int) < size ∨ (size : Int) < size))]

theorem memcpyS_ok {target source : Nat} (positive : 0 < size) (small : size ≤ securecMemMaxLen)
    (fits : target + size ≤ dst.length) (inside : source + size ≤ data.length) :
    memcpyS failure data dst (some target) size (some source) size =
      .ok (overwrite dst target ((data.drop source).take size)) := by
  unfold memcpyS
  dsimp only
  rw [if_neg (by omega),if_neg (by omega)]

theorem ptrAdd_of_lt {maxBufLen idx : Nat} (inside : idx < maxBufLen) : ptrAdd maxBufLen idx = some idx := if_pos inside

end Copies

section Sizes

theorem checkedMul_ok {a b : Nat} (small : a * b < 2 ^ 63) : checkedMul a b = .ok ((a * b : Nat) : Int) := by
  have product : (a : Int) * b = ((a * b : Nat) : Int) := by simp
  unfold checkedMul
  rw [product,if_neg (by omega)]

theorem checkedMul_cases (a b : Int) : checkedMul a b = .ok (a * b) ∨ checkedMul a b = .error .failed := by
  unfold checkedMul
  split
  · exact .inr rfl
  · exact .inl rfl

theorem getTotalDataSize_cases (a b c d size : Int) : getTotalDataSize [a,b,c,d] size = .ok (c * d * (a * b) * size) ∨
    getTotalDataSize [a,b,c,d] size = .error .failed := by
  have unfolded : getTotalDataSize [a,b,c,d] size = (do
      let t1 ← checkedMul c d
      let t2 ← checkedMul a b
      let total ← checkedMul t1 t2
      checkedMul total size) := rfl
  rw [unfolded]
  rcases checkedMul_cases c d with one | one
  · rcases checkedMul_cases a b with two | two
    · rcases checkedMul_cases (c * d) (a * b) with three | three
      · rw [one,ok_bind,two,ok_bind,three,ok_bind]
        exact checkedMul_cases _ _
      · rw [one,ok_bind,two,ok_bind,three]
        exact .inr rfl
    · rw [one,ok_bind,two]
      exact .inr rfl
  · rw [one]
    exact .inr rfl

theorem getTotalDataSize_ok {a b c d size : Nat} (aPos : 0 < a) (bPos : 0 < b) (cPos : 0 < c) (dPos : 0 < d)
    (sizePos : 0 < size) (small : [a,b,c,d].prod * size < 2 ^ 63) :
    getTotalDataSize [(a : Int),b,c,d] size = .ok (([a,b,c,d].prod * size : Nat) : Int) := by
  have total : c * d * (a * b) * size = [a,b,c,d].prod * size := by
    simp only [prod_cons,prod_nil]
    ring
  rw [← total] at small ⊢
  have three : c * d * (a * b) < 2 ^ 63 := lt_of_le_of_lt (Nat.le_mul_of_pos_right _ sizePos) small
  have one : c * d < 2 ^ 63 := lt_of_le_of_lt (Nat.le_mul_of_pos_right _ (mul_pos aPos bPos)) three
  have two : a * b < 2 ^ 63 := lt_of_le_of_lt (Nat.le_mul_of_pos_left _ (mul_pos cPos dPos)) three
  change (do
    let t1 ← checkedMul (c : Int) d
    let t2 ← checkedMul (a : Int) b
    let total ← checkedMul t1 t2
    checkedMul total size) = _
  rw [checkedMul_ok one,ok_bind,checkedMul_ok two,ok_bind,checkedMul_ok three,ok_bind,checkedMul_ok small]

end Sizes

section Padding

variable {data : List UInt8} {n c h w rows size : Nat}

def chargedCopy (data : List UInt8) (dstSize size : Nat) (state : List UInt8 × Int) (run : Run) :
    Except TransError (List UInt8 × Int) := do
  let dst ← memcpyS .memoryOperateFailed data state.1 (ptrAdd dstSize (run.target * size)) state.2 (some (run.source * size))
    (run.length * size)
  .ok (dst,state.2 - (run.length * size : Nat))

def plainCopy (data : List UInt8) (dstSize block size : Nat) (dst : List UInt8) (run : Run) : Except TransError (List UInt8) :=
  memcpyS .memoryOperateFailed data dst (ptrAdd dstSize (run.target * size)) block (some (run.source * size)) block

theorem plainCopy_ok {items sources width : Nat} {run : Run} {dst : List UInt8} (block : 0 < width * size)
    (small : items * size ≤ securecMemMaxLen) (length : run.length = width) (whole : data.length = sources * size)
    (fits : run.target + run.length ≤ items) (inside : run.source + run.length ≤ sources) (room : dst.length = items * size) :
    plainCopy data (items * size) (width * size) size dst run =
      .ok (overwrite dst (run.target * size) (slice size data run.source run.length)) := by
  rw [length] at fits inside
  have target := Nat.mul_le_mul_right size fits
  have source := Nat.mul_le_mul_right size inside
  rw [add_mul] at target source
  rw [plainCopy,ptrAdd_of_lt (by omega),memcpyS_ok block (by omega) (by omega) (by omega),slice,length]

theorem paddingLoops_eq (dstSize : Nat) (state : List UInt8 × Int) : paddingLoops data n c h w dstSize size state =
    (cornerRuns n c (h * w) 4 (h * w)).foldlM (chargedCopy data dstSize size) state := by
  rw [paddingLoops,cornerRuns]
  apply forLoop_flatMap
  intro i state
  rw [forLoop,foldlM_map]
  congr 1
  funext state j
  have target : (i * 4 * h * w + j * h * w) * size = (i * 4 + j) * (h * w) * size := by ring
  have source : (i * c * h * w + j * h * w) * size = (i * c + j) * (h * w) * size := by ring
  rw [chargedCopy,target,source]

theorem paddingLoops_spec (hwPos : 0 < h * w) (sizePos : 0 < size)
    (whole : data.length = [n,c,h * w].prod * size) (more : n ≤ rows) (four : c ≤ 4)
      (small : [rows,4,h * w].prod * size ≤ securecMemMaxLen) : ∃ padded left,
    paddingLoops data n c h w ([rows,4,h * w].prod * size) size
      (replicate ([rows,4,h * w].prod * size) 0,([rows,4,h * w].prod * size : Nat)) = .ok (padded,left) ∧
      (Layout.corner more four (le_refl (h * w))).Renders size data padded := by
  have block : 0 < h * w * size := mul_pos hwPos sizePos
  have cells := Layout.cellsOf_cornerRuns more four (le_refl (h * w))
  have lengths : ∀ run ∈ cornerRuns n c (h * w) 4 (h * w), run.length = h * w := by
    intro run there
    obtain ⟨i,_,inner⟩ := mem_flatMap.mp there
    obtain ⟨j,_,rfl⟩ := mem_map.mp inner
    rfl
  have number : (cornerRuns n c (h * w) 4 (h * w)).length = n * c := by
    simp [cornerRuns]
  have copies : ∀ run ∈ cornerRuns n c (h * w) 4 (h * w), run.target + run.length ≤ [rows,4,h * w].prod →
      run.source + run.length ≤ [n,c,h * w].prod → ∀ buffer : List UInt8, buffer.length = [rows,4,h * w].prod * size →
        plainCopy data ([rows,4,h * w].prod * size) (h * w * size) size buffer run =
          .ok (overwrite buffer (run.target * size) (slice size data run.source run.length)) :=
    fun run there fits inside _ room => plainCopy_ok block small (lengths run there) whole fits inside room
  obtain ⟨padded,exec,renders⟩ := Layout.render (List.Perm.of_eq cells)
    (fun run there => by rw [lengths run there]; exact hwPos) whole copies
  have enough : ((h * w * size : Nat) : Int) * (cornerRuns n c (h * w) 4 (h * w)).length ≤
      ([rows,4,h * w].prod * size : Nat) := by
    rw [number,← Int.natCast_mul]
    apply Int.ofNat_le.mpr
    calc h * w * size * (n * c) ≤ h * w * size * (rows * 4) := Nat.mul_le_mul_left _ (Nat.mul_le_mul more four)
      _ = [rows,4,h * w].prod * size := by
        simp only [prod_cons,prod_nil]
        ring
  have charged : ∀ run ∈ cornerRuns n c (h * w) 4 (h * w), ∀ dst (room : Int), ((h * w * size : Nat) : Int) ≤ room →
      room ≤ securecMemMaxLen → chargedCopy data ([rows,4,h * w].prod * size) size (dst,room) run =
        (plainCopy data ([rows,4,h * w].prod * size) (h * w * size) size dst run).map
          fun next => (next,room - (h * w * size : Nat)) := by
    intro run there dst room enough small
    rw [chargedCopy,lengths run there,memcpyS_room block enough small]
    rfl
  have account := foldlM_account (Int.natCast_nonneg (h * w * size)) (cornerRuns n c (h * w) 4 (h * w)) charged
    (replicate ([rows,4,h * w].prod * size) 0) _ enough (Int.ofNat_le.mpr small)
  rw [exec] at account
  exact ⟨padded,_,(paddingLoops_eq _ _).trans account,renders⟩

end Padding

section Rows

variable {data : List UInt8} {rows width stride size : Nat}

def rowRun (width stride k : Nat) : Run := ⟨k * stride,k * width,width⟩

theorem cornerRuns_rows (rows width stride : Nat) :
    cornerRuns rows 1 width 1 stride = (range rows).map (rowRun width stride) := by
  simp [cornerRuns,rowRun,map_eq_flatMap]

theorem rowLoop_eq (dstSize : Nat) (block : 0 < width * size) (wide : width ≤ stride) (left k : Nat) (dst : List UInt8)
    (small : left * (stride * size) ≤ securecMemMaxLen) :
    rowLoop data dstSize (width * size) (stride * size) left k (left * (stride * size) : Nat) dst =
      ((range' k left).map (rowRun width stride)).foldlM (plainCopy data dstSize (width * size) size) dst := by
  have fits := Nat.mul_le_mul_right size wide
  induction left generalizing k dst with
  | zero => rfl
  | succ left ih =>
    rw [Nat.succ_mul] at small
    have room : ((left + 1) * (stride * size) : Nat) - (stride * size : Nat) = ((left * (stride * size) : Nat) : Int) := by
      rw [Nat.succ_mul]
      omega
    rw [rowLoop,memcpyS_room block (by rw [Nat.succ_mul]; omega) (by rw [Nat.succ_mul]; omega),range'_succ,map_cons,
      foldlM_cons,plainCopy,rowRun,room]
    dsimp only
    rw [mul_assoc k stride size,mul_assoc k width size]
    congr 1
    funext dst
    cases left with
    | zero => rw [zero_mul]; rfl
    | succ left =>
      have more : 0 < (left + 1) * (stride * size) := mul_pos (Nat.succ_pos left) (by omega)
      rw [if_neg (by omega)]
      exact ih (k + 1) dst (by omega)

theorem rowLoop_spec (block : 0 < width * size) (wide : width ≤ stride) (whole : data.length = [rows,1,width].prod * size)
    (small : [rows,1,stride].prod * size ≤ securecMemMaxLen) : ∃ padded,
    rowLoop data ([rows,1,stride].prod * size) (width * size) (stride * size) rows 0 ([rows,1,stride].prod * size : Nat)
      (replicate ([rows,1,stride].prod * size) 0) = .ok padded ∧
      (Layout.corner (le_refl rows) (le_refl 1) wide).Renders size data padded := by
  have lengths : ∀ run ∈ cornerRuns rows 1 width 1 stride, run.length = width := by
    rw [cornerRuns_rows]
    exact forall_mem_map.mpr fun _ _ => rfl
  have copies : ∀ run ∈ cornerRuns rows 1 width 1 stride, run.target + run.length ≤ [rows,1,stride].prod →
      run.source + run.length ≤ [rows,1,width].prod → ∀ buffer : List UInt8, buffer.length = [rows,1,stride].prod * size →
        plainCopy data ([rows,1,stride].prod * size) (width * size) size buffer run =
          .ok (overwrite buffer (run.target * size) (slice size data run.source run.length)) :=
    fun run there fits inside _ room => plainCopy_ok block small (lengths run there) whole fits inside room
  have widthPos : 0 < width := Nat.pos_of_mul_pos_right block
  obtain ⟨padded,exec,renders⟩ := Layout.render
    (List.Perm.of_eq (Layout.cellsOf_cornerRuns (le_refl rows) (le_refl 1) wide))
    (fun run there => by rw [lengths run there]; exact widthPos) whole copies
  have total : [rows,1,stride].prod * size = rows * (stride * size) := by
    simp only [prod_cons,prod_nil]
    ring
  refine ⟨padded,?_,renders⟩
  rw [← exec,cornerRuns_rows,range_eq_range',← rowLoop_eq _ block wide rows 0 _ (by rwa [← total]),← total]

end Rows

section Blocks

variable {h w m size : Nat}

def cube (size : Nat) : Nat := if size = 1 then 32 else 16

theorem cube_pos (size : Nat) : 0 < cube size := by
  unfold cube
  split <;> decide

theorem getCubeSizeByDataType_eq (sizePos : 0 < size) : getCubeSizeByDataType size = cube size := by
  unfold getCubeSizeByDataType cube
  rw [if_neg (by omega)]
  by_cases one : size = 1
  · rw [if_pos (by omega),if_pos one]
    rfl
  · rw [if_neg (by omega),if_neg one]
    rfl

theorem blocks_sixteen (mPos : 0 < m) : blocks (m * 16) 16 = m := by
  rw [blocks_eq (by omega) (by omega)]
  omega

def columns (h w size : Nat) : Nat := blocks (h * w * 4) (cube size)

theorem columns_pos (size : Nat) (hPos : 0 < h) (wPos : 0 < w) : 0 < columns h w size :=
  blocks_pos (cube_pos size) (mul_pos (mul_pos hPos wPos) (by decide))

def c04Axes (h w m size : Nat) : List Nat := [columns h w size,m,16,cube size]

def c04Place (w size a i x y : Nat) : List Nat :=
  [((x * w + y) * 4 + i) / cube size,a / 16,a % 16,((x * w + y) * 4 + i) % cube size]

theorem inner_lt {i x y : Nat} (iBound : i < 4) (xBound : x < h) (yBound : y < w) : (x * w + y) * 4 + i < h * w * 4 := by
  have row : (x + 1) * w ≤ h * w := Nat.mul_le_mul_right w xBound
  rw [Nat.succ_mul] at row
  omega

theorem transFormatNchwToFzC04_eq (memory : Nat → UInt8) {padded : List UInt8} (mPos : 0 < m) (sizePos : 0 < size)
    (dstShape : List Int) (c0 : Int) : transFormatNchwToFzC04 memory ⟨padded,[m * 16,4,h,w].map Int.ofNat,dstShape,size,c0⟩ = (do
      let transposed ← transpose memory padded ([m * 16,4,h,w].map Int.ofNat) size [0,2,3,1]
      if transposed.length ≠ m * 16 * 4 * h * w * size then .error .paramInvalid
      else
        let dstSize ← getTotalDataSize [(m : Int),(16 : Nat),(columns h w size : Nat),(cube size : Nat)] size
        if dstSize = 0 then .ok []
        else
          let cleared ← clearedBuffer dstSize.toNat
          let rows ← rowLoop transposed dstSize.toNat (h * w * 4 * size) (columns h w size * cube size * size) (m * 16) 0 dstSize
            cleared
          transpose memory rows ([m,16,columns h w size,cube size].map Int.ofNat) size [2,0,1,3]) := by
  have countN : count ([m * 16,4,h,w].map Int.ofNat) 0 = m * 16 := rfl
  have countC : count ([m * 16,4,h,w].map Int.ofNat) 1 = 4 := rfl
  have countH : count ([m * 16,4,h,w].map Int.ofNat) 2 = h := rfl
  have countW : count ([m * 16,4,h,w].map Int.ofNat) 3 = w := rfl
  have shape : [ceil ((m * 16 : Nat) : Int) kCubeK,kCubeK,ceil ((h * w * 4 : Nat) : Int) (cube size : Int),(cube size : Int)] =
      [(m : Int),(16 : Nat),(columns h w size : Nat),(cube size : Nat)] := by
    rw [ceil_eq_blocks,columns,show kCubeK = ((16 : Nat) : Int) from rfl,ceil_eq_blocks,blocks_sixteen mPos]
  have stride :
    (dim [(m : Int),(16 : Nat),(columns h w size : Nat),(cube size : Nat)] 2 * (cube size : Nat) * (size : Int)).toNat =
      columns h w size * cube size * size := by
    change (((columns h w size : Nat) : Int) * (cube size : Nat) * (size : Int)).toNat = _
    rw [← Int.natCast_mul,← Int.natCast_mul,Int.toNat_natCast]
  have block : 4 * h * w * size = h * w * 4 * size := by ring
  unfold transFormatNchwToFzC04
  dsimp only
  rw [countN,countC,countH,countW,Int.toNat_natCast,getCubeSizeByDataType_eq sizePos,shape,stride,block]
  rfl

variable {padded : List UInt8} (memory : Nat → UInt8) (hPos : 0 < h) (wPos : 0 < w) (mPos : 0 < m) (sizePos : 0 < size)
  (small : (c04Axes h w m size).prod * size ≤ securecMemMaxLen) (whole : padded.length = [m * 16,4,h,w].prod * size)

include hPos wPos mPos sizePos small whole

theorem transFormatNchwToFzC04_spec (dstShape : List Int) (c0 : Int) : ∃ tiled,
    transFormatNchwToFzC04 memory ⟨padded,[m * 16,4,h,w].map Int.ofNat,dstShape,size,c0⟩ = .ok tiled ∧
      tiled.length = (c04Axes h w m size).prod * size ∧ ∀ a < m * 16, ∀ i < 4, ∀ x < h, ∀ y < w,
        element size tiled (offset (c04Axes h w m size) (c04Place w size a i x y)) =
          element size padded (offset [m * 16,4,h,w] [a,i,x,y]) := by
  have cubePos := cube_pos size
  have innerPos : 0 < h * w * 4 := mul_pos (mul_pos hPos wPos) (by decide)
  have columnsPos := columns_pos size hPos wPos
  have wide : h * w * 4 ≤ columns h w size * cube size := le_blocks cubePos innerPos
  have axesPos : 0 < (c04Axes h w m size).prod := by
    simp [c04Axes,columnsPos,mPos,cubePos]
  have sizeSmall : size ≤ securecMemMaxLen := (Nat.le_mul_of_pos_left size axesPos).trans small
  have rowsTotal : [m * 16,1,columns h w size * cube size].prod * size = (c04Axes h w m size).prod * size := by
    simp only [c04Axes,prod_cons,prod_nil]
    ring
  have shapeTotal : [m,16,columns h w size,cube size].prod * size = (c04Axes h w m size).prod * size := by
    simp only [c04Axes,prod_cons,prod_nil]
    ring
  have channelsOrder : [0,2,3,1].Perm (range 4) := by decide
  have columnsOrder : [2,0,1,3].Perm (range 4) := by decide
  -- the three buffers
  obtain ⟨nhwc,first,channelsLast⟩ := transpose_permutes sizePos sizeSmall memory (by simp)
    channelsOrder whole
  have nhwcWhole : nhwc.length = [m * 16,1,h * w * 4].prod * size := by
    rw [channelsLast.length]
    simp only [prod_cons,prod_nil]
    ring
  obtain ⟨rows,second,padding⟩ := rowLoop_spec (mul_pos innerPos sizePos) wide nhwcWhole (by rwa [rowsTotal])
  have rowsWhole : rows.length = [m,16,columns h w size,cube size].prod * size := by
    rw [padding.length,rowsTotal,shapeTotal]
  obtain ⟨tiled,third,columnsFirst⟩ := transpose_permutes sizePos sizeSmall memory (by simp)
    columnsOrder rowsWhole
  refine ⟨tiled,?_,by rw [columnsFirst.length,shapeTotal],?_⟩
  · rw [transFormatNchwToFzC04_eq memory mPos sizePos,first,ok_bind]
    have length : nhwc.length = m * 16 * 4 * h * w * size := by
      rw [nhwcWhole]
      simp only [prod_cons,prod_nil]
      ring
    rw [if_neg (not_not.mpr length),
      getTotalDataSize_ok mPos (by decide) columnsPos cubePos sizePos
        (by rw [shapeTotal]; exact lt_of_le_of_lt small (by decide)),
      ok_bind,shapeTotal,if_neg (by have := mul_pos axesPos sizePos; omega),Int.toNat_natCast,clearedBuffer,
      if_neg (by omega),ok_bind]
    rw [rowsTotal] at second
    rw [second,ok_bind]
    exact third
  · intro a aBound i iBound x xBound y yBound
    have inner := inner_lt iBound xBound yBound
    have one := channelsLast.elements _ (mem_indices_four aBound iBound xBound yBound)
    have two := padding.elements [a,0,(x * w + y) * 4 + i] (by simp [aBound,inner,indices])
    have three := columnsFirst.elements [a / 16,a % 16,((x * w + y) * 4 + i) / cube size,((x * w + y) * 4 + i) % cube size]
      (mem_indices_four (by omega) (by omega) (div_lt_blocks cubePos inner) (Nat.mod_lt _ cubePos))
    have column := Nat.div_add_mod' ((x * w + y) * 4 + i) (cube size)
    have kernel := Nat.div_add_mod' a 16
    have rowPlace : offset [m,16,columns h w size,cube size]
        [a / 16,a % 16,((x * w + y) * 4 + i) / cube size,((x * w + y) * 4 + i) % cube size] =
        offset [m * 16,1,columns h w size * cube size] [a,0,(x * w + y) * 4 + i] := by
      generalize ((x * w + y) * 4 + i) / cube size = q at column ⊢
      generalize ((x * w + y) * 4 + i) % cube size = r at column ⊢
      rw [← column]
      conv_rhs => rw [← kernel]
      simp only [offset,prod_cons,prod_nil]
      ring
    have innerPlace : offset [m * 16,1,h * w * 4] [a,0,(x * w + y) * 4 + i] =
        offset (permute [m * 16,4,h,w] [0,2,3,1]) (permute [a,i,x,y] [0,2,3,1]) := by
      simp only [permute,map_cons,map_nil,getD_cons_zero,getD_cons_succ,offset,prod_cons,prod_nil]
      ring
    rw [rowPlace] at three
    rw [innerPlace] at two
    exact three.trans (two.trans one)

end Blocks

end GraphEngine.Formats
