import GraphEngine.Lib.Outcome
import GraphEngine.Formats.FractalLayout

/-! ND data comes back from FRACTAL_NZ and from FRACTAL_ZZ as it was, for every rank. A whole tile row is copied by one call, so
that its bytes must be within what the secure functions take. -/

namespace GraphEngine.Formats

open Lib.RowMajor Lib.ElementBuffer Lib.Placement Lib List
open Int (ofNat toNat_natCast)

section Convert

variable {size items sources c0 : Nat} {data dst tiled : List UInt8}

theorem copyRun_ok (run : Run) (sizePos : 0 < size) (nonempty : 0 < run.length) (small : run.length * size ≤ securecMemMaxLen)
    (fits : run.target + run.length ≤ items) (whole : data.length = sources * size)
    (inside : run.source + run.length ≤ sources) :
    copyElement data (items * size) (run.target * size) (run.source * size) (size * run.length) dst =
      .ok (overwrite dst (run.target * size) (slice size data run.source run.length)) := by
  have bytes : 0 < run.length * size := mul_pos nonempty sizePos
  have room := Nat.mul_le_mul_right size fits
  have read := Nat.mul_le_mul_right size inside
  rw [add_mul] at room read
  have accepted : checkProtected (items * size) (run.target * size) (run.length * size) = .ok () := by
    unfold checkProtected
    rw [if_neg (by omega)]
    exact if_neg (by omega)
  rw [copyElement,mul_comm size,accepted]
  exact if_neg (by omega)

theorem bytes_cast (shape : List Nat) (size : Nat) :
    (getItemNumByShape (shape.map ofNat) * (size : Int)).toNat = shape.prod * size := by
  rw [items_cast,← Int.natCast_mul,toNat_natCast]

variable {loops : TileLoops}
  {shape tiledShape plain padded : List Nat} {hwShape : List Int} {layout : Layout plain padded} {runs : List Run}

structure TileRuns (loops : TileLoops)
    (shape tiledShape : List Nat) (hwShape : List Int) (layout : Layout plain padded) (runs : List Run) : Prop where
  copies : ∀ copy dst, tileLoops loops hwShape (tiledShape.map Int.ofNat) copy dst = runs.foldlM (runCopy copy) dst
  cells : cellsOf runs = layout.cells
  nonempty : ∀ run ∈ runs, 0 < run.length
  plainItems : plain.prod = shape.prod
  paddedItems : padded.prod = tiledShape.prod

variable (tile : TileRuns loops shape tiledShape hwShape layout runs) (sizePos : 0 < size)
  (small : ∀ run ∈ runs, run.length * size ≤ securecMemMaxLen) (whole : data.length = shape.prod * size)
include tile sizePos small whole

theorem transFormatFromNd_spec : ∃ tiled,
    transFormatFromNd loops ⟨data,shape.map ofNat,tiledShape.map ofNat,size,c0⟩ hwShape = .ok tiled ∧
      layout.Renders size data tiled := by
  unfold transFormatFromNd
  dsimp only
  rw [bytes_cast,toNat_natCast]
  split
  · next none =>
    have noItems : padded.prod = 0 := by
      rw [tile.paddedItems]
      exact (Nat.mul_eq_zero.mp none).resolve_right (by omega)
    exact ⟨[],rfl,Layout.Renders.nil noItems⟩
  · rw [tile.copies,← tile.paddedItems]
    rw [← tile.plainItems] at whole
    apply Layout.render (List.Perm.of_eq tile.cells) tile.nonempty whole
    intro run there fits inside buffer _
    exact copyRun_ok run sizePos (tile.nonempty run there) (small run there) fits whole inside

theorem transFormatToNd_spec {fresh : Nat → List UInt8} (length : ∀ n, (fresh n).length = n)
    (renders : layout.Renders size data tiled) :
    transFormatToNd loops fresh ⟨tiled,tiledShape.map ofNat,shape.map ofNat,size,c0⟩ hwShape = .ok data := by
  unfold transFormatToNd
  dsimp only
  rw [bytes_cast,toNat_natCast]
  split
  · next none =>
    rw [none] at whole
    rw [length_eq_zero_iff.mp whole]
  · rw [tile.copies,← tile.plainItems]
    rw [← tile.plainItems] at whole
    apply Layout.restore (List.Perm.of_eq tile.cells) tile.nonempty whole renders ?_ _ (length _)
    intro run there fits inside buffer _
    exact copyRun_ok run.reverse sizePos (tile.nonempty run there) (small run there) inside renders.length fits

end Convert

section Shapes

structure Matrices where
  leading : List Nat
  h : Nat
  w : Nat

def matricesOf (shape : List Nat) : Matrices :=
  match shape.reverse with
  | [] => ⟨[],0,0⟩
  | [n] => ⟨[],1,n⟩
  | w :: h :: front => ⟨front.reverse,h,w⟩

namespace Matrices

def plain (m : Matrices) : List Nat := [m.leading.prod,m.h,m.w]

def nz (m : Matrices) (c0 : Nat) : List Nat := m.leading ++ [blocks m.w c0,blocks m.h 16,16,c0]

def zz (m : Matrices) (c0 : Nat) : List Nat := m.leading ++ [blocks m.h c0,blocks m.w c0,c0,c0]

end Matrices

variable {shape : List Nat} {c0 : Nat}

theorem shape_cases (some : shape ≠ []) : (∃ n, shape = [n] ∧ matricesOf shape = ⟨[],1,n⟩) ∨
    ∃ leading h w, shape = leading ++ [h,w] ∧ matricesOf shape = ⟨leading,h,w⟩ := by
  unfold matricesOf
  generalize reversed : shape.reverse = back
  have forward : shape = back.reverse := by rw [← reversed,reverse_reverse]
  match back with
  | [] => exact absurd forward some
  | [n] => exact .inl ⟨n,forward,rfl⟩
  | w :: h :: front => exact .inr ⟨front.reverse,h,w,by simpa using forward,rfl⟩

theorem plain_prod (some : shape ≠ []) : (matricesOf shape).plain.prod = shape.prod := by
  rcases shape_cases some with ⟨n,rfl,view⟩ | ⟨leading,h,w,rfl,view⟩
  all_goals
    rw [view]
    simp [Matrices.plain]

theorem blocks_one (c0Pos : 0 < c0) : blocks 1 c0 = 1 := by
  rw [blocks_eq Nat.one_pos c0Pos,Nat.sub_self,Nat.zero_div]

theorem fits_blocks (n : Nat) (c0Pos : 0 < c0) : n ≤ blocks n c0 * c0 := by
  rcases Nat.eq_zero_or_pos n with rfl | nPos
  · exact Nat.zero_le _
  · exact le_blocks c0Pos nPos

theorem transShapeToFrac_matrix (single : Int → List Int) (tiled : Int → Int → List Int) (leading : List Int) (h w : Int) :
    transShapeToFrac single tiled (leading ++ [h,w]) = if isShapeValid (leading ++ tiled h w) then
      .ok (leading ++ tiled h w,[getItemNumByShape leading,h,w]) else .error .shapeInvalid := by
  simp [transShapeToFrac]

theorem transShapeToFrac_eq {single : Int → List Int} {tiled : Int → Int → List Int} (tiles : Nat → Nat → List Nat)
    (tiledEq : ∀ h w : Nat, tiled h w = (tiles h w).map ofNat) (singleEq : ∀ n : Nat, single n = (tiles 1 n).map ofNat)
    (some : shape ≠ []) {m : Matrices} (view : matricesOf shape = m)
    (valid : isShapeValid ((m.leading ++ tiles m.h m.w).map ofNat)) : transShapeToFrac single tiled (shape.map ofNat) =
      .ok ((m.leading ++ tiles m.h m.w).map ofNat,m.plain.map ofNat) := by
  rcases shape_cases some with ⟨n,rfl,view'⟩ | ⟨leading,h,w,rfl,view'⟩
  · cases view.symm.trans view'
    have same : single (ofNat n) = (tiles 1 n).map ofNat := singleEq n
    change (if isShapeValid (single (ofNat n)) then _ else _) = _
    rw [same]
    exact if_pos valid
  · cases view.symm.trans view'
    have same : tiled (ofNat h) (ofNat w) = (tiles h w).map ofNat := tiledEq h w
    rw [map_append,map_cons,map_cons,map_nil,transShapeToFrac_matrix,same,← map_append,items_cast]
    exact if_pos valid

end Shapes

section Tiles

variable {shape : List Nat} {c0 size : Nat}

theorem countBackwards_tiles (leading : List Nat) (a b c d : Nat) :
    countBackwards ((leading ++ [a,b,c,d]).map ofNat) 4 = a ∧ countBackwards ((leading ++ [a,b,c,d]).map ofNat) 3 = b ∧
    countBackwards ((leading ++ [a,b,c,d]).map ofNat) 2 = c ∧
    countBackwards ((leading ++ [a,b,c,d]).map ofNat) 1 = d := by
  simp [countBackwards,count,dim]

theorem tileLoops_eq (loops : TileLoops) (m : Matrices) (a b h0 : Nat) (c0Pos : 0 < c0) (copy : TileCopy) (dst : List UInt8) :
    tileLoops loops (m.plain.map ofNat) ((m.leading ++ [a,b,h0,c0]).map ofNat) copy dst =
      loops m.leading.prod m.h m.w a b h0 c0 copy dst := by
  obtain ⟨fourth,third,second,first⟩ := countBackwards_tiles m.leading a b h0 c0
  rw [tileLoops,first,second,third,fourth,if_neg (by omega)]
  rfl

namespace Matrices

def nzRuns (m : Matrices) (c0 : Nat) : List Run := fracNzRuns m.leading.prod m.h m.w (blocks m.w c0) (blocks m.h 16) 16 c0

def zzRuns (m : Matrices) (c0 : Nat) : List Run := fracZzRuns m.leading.prod m.h m.w (blocks m.h c0) (blocks m.w c0) c0 c0

def nzLayout (m : Matrices) (c0Pos : 0 < c0) : Layout m.plain [m.leading.prod,blocks m.w c0,blocks m.h 16 * 16,c0] :=
  Formats.nzLayout c0Pos (fits_blocks m.w c0Pos) (fits_blocks m.h (by decide))

def zzLayout (m : Matrices) (c0Pos : 0 < c0) : Layout m.plain [m.leading.prod,blocks m.h c0,blocks m.w c0,c0,c0] :=
  Formats.zzLayout c0Pos c0Pos (fits_blocks m.h c0Pos) (fits_blocks m.w c0Pos)

variable {m : Matrices} {run : Run}

theorem nzRuns_length (there : run ∈ m.nzRuns c0) : run.length = 1 ∨ run.length = c0 ∧ 0 < m.w / c0 := by
  obtain ⟨t,_,there⟩ := mem_flatMap.mp there
  obtain ⟨y,_,there⟩ := mem_flatMap.mp there
  exact rowRuns_length there

theorem zzRuns_length (there : run ∈ m.zzRuns c0) : run.length = 1 ∨ run.length = c0 ∧ 0 < m.w / c0 := by
  obtain ⟨t,_,there⟩ := mem_flatMap.mp there
  obtain ⟨b,_,there⟩ := mem_flatMap.mp there
  obtain ⟨y,_,there⟩ := mem_flatMap.mp there
  exact rowRuns_length there

end Matrices

variable {w : Nat} {run : Run}

theorem nonempty_of_length (c0Pos : 0 < c0) (length : run.length = 1 ∨ run.length = c0 ∧ 0 < w / c0) : 0 < run.length := by
  omega

theorem nz_tileRuns (some : shape ≠ []) (c0Pos : 0 < c0) :
    TileRuns fracNzLoops shape ((matricesOf shape).nz c0) ((matricesOf shape).plain.map ofNat)
      ((matricesOf shape).nzLayout c0Pos) ((matricesOf shape).nzRuns c0) where
  copies copy dst := by
    rw [Matrices.nz,tileLoops_eq _ _ _ _ _ c0Pos]
    apply forLoop_flatMap
    intro timesIdx dst
    apply forLoop_flatMap
    intro h1h0Idx dst
    exact copyRow_eq _ _ _ _ _ copy dst
  cells := cellsOf_fracNzRuns _ _ _
  nonempty run there := nonempty_of_length c0Pos (Matrices.nzRuns_length there)
  plainItems := plain_prod some
  paddedItems := by
    simp only [Matrices.nz,prod_append,prod_cons,prod_nil]
    ring

theorem zz_tileRuns (some : shape ≠ []) (c0Pos : 0 < c0) :
    TileRuns fracZzLoops shape ((matricesOf shape).zz c0) ((matricesOf shape).plain.map ofNat)
      ((matricesOf shape).zzLayout c0Pos) ((matricesOf shape).zzRuns c0) where
  copies copy dst := by
    rw [Matrices.zz,tileLoops_eq _ _ _ _ _ c0Pos]
    apply forLoop_flatMap
    intro timesIdx dst
    apply forLoop_flatMap
    intro h1Idx dst
    apply forLoop_flatMap
    intro h0Idx dst
    exact copyRow_eq _ _ _ _ _ copy dst
  cells := cellsOf_fracZzRuns _ _ _ _
  nonempty run there := nonempty_of_length c0Pos (Matrices.zzRuns_length there)
  plainItems := plain_prod some
  paddedItems := by
    simp only [Matrices.zz,prod_append,prod_cons,prod_nil]

theorem run_small (sizeFits : size ≤ securecMemMaxLen) (tileFits : w < c0 ∨ c0 * size ≤ securecMemMaxLen)
    (length : run.length = 1 ∨ run.length = c0 ∧ 0 < w / c0) : run.length * size ≤ securecMemMaxLen := by
  rcases length with single | ⟨tile,some⟩
  · rw [single,one_mul]
    exact sizeFits
  · rw [tile]
    rcases tileFits with narrow | fits
    · rw [Nat.div_eq_of_lt narrow] at some
      exact absurd some (lt_irrefl 0)
    · exact fits

end Tiles

section Checks

variable {transShape : List Int → Int → Except TransError (List Int × List Int)}
  {convert : TransArgs → List Int → Except TransError (List UInt8)} {format : MatrixFormat} {shape tiledShape hwShape : List Int}
  {size c0 : Nat} (sizePos : 0 < size) (plainValid : checkMatrixShape format shape) (tiledValid : isShapeValid tiledShape)
  (trans : transShape shape c0 = .ok (tiledShape,hwShape)) (data : List UInt8)
include sizePos plainValid tiledValid trans

theorem transFormatToFractal_eq : transFormatToFractal transShape convert format ⟨data,shape,tiledShape,size,c0⟩ =
    convert ⟨data,shape,tiledShape,size,c0⟩ hwShape := by
  have sizeSome : ¬(size : Int) ≤ 0 := by omega
  have shapes : ¬(¬checkMatrixShape format shape ∨ ¬isShapeValid tiledShape) := by
    rw [not_or,not_not,not_not]
    exact ⟨plainValid,tiledValid⟩
  unfold transFormatToFractal
  rw [if_neg sizeSome,if_neg shapes,trans,ok_bind]
  exact if_neg fun differs => differs.2 rfl

theorem transFormatFromFractal_eq : transFormatFromFractal transShape convert format ⟨data,tiledShape,shape,size,c0⟩ =
    convert ⟨data,tiledShape,shape,size,c0⟩ hwShape := by
  have sizeSome : ¬(size : Int) ≤ 0 := by omega
  have shapes : ¬(¬isShapeValid tiledShape ∨ ¬checkMatrixShape format shape) := by
    rw [not_or,not_not,not_not]
    exact ⟨tiledValid,plainValid⟩
  unfold transFormatFromFractal
  rw [if_neg sizeSome,if_neg shapes,trans,ok_bind]
  exact if_neg fun differs => differs rfl

end Checks

section Accepted

variable {shape : List Nat} {c0 : Nat} (some : shape ≠ []) (c0Pos : 0 < c0)
include some c0Pos

omit c0Pos in
theorem nz_transShape (valid : isShapeValid (((matricesOf shape).nz c0).map ofNat)) :
    transShapeToFracNz (shape.map ofNat) c0 =
      .ok (((matricesOf shape).nz c0).map ofNat,(matricesOf shape).plain.map ofNat) := by
  have tiledEq : ∀ h w : Nat, [ceil w c0,ceil h kCubeSize,kCubeSize,(c0 : Int)] =
      [blocks w c0,blocks h 16,16,c0].map ofNat := by
    intro h w
    rw [ceil_eq_blocks]
    exact congrArg (fun d => [(blocks w c0 : Int),d,16,c0]) (ceil_eq_blocks h 16)
  refine transShapeToFrac_eq (fun h w => [blocks w c0,blocks h 16,16,c0]) tiledEq ?_ some rfl valid
  intro n
  rw [ceil_eq_blocks]
  rfl

theorem zz_transShape (valid : isShapeValid (((matricesOf shape).zz c0).map ofNat)) :
    transShapeToFracZz (shape.map ofNat) c0 =
      .ok (((matricesOf shape).zz c0).map ofNat,(matricesOf shape).plain.map ofNat) := by
  have tiledEq : ∀ h w : Nat, [ceil h c0,ceil w c0,(c0 : Int),(c0 : Int)] =
      [blocks h c0,blocks w c0,c0,c0].map ofNat := by
    intro h w
    rw [ceil_eq_blocks,ceil_eq_blocks]
    rfl
  refine transShapeToFrac_eq (fun h w => [blocks h c0,blocks w c0,c0,c0]) tiledEq ?_ some rfl valid
  intro n
  rw [ceil_eq_blocks,blocks_one c0Pos]
  rfl

variable (positive : ∀ d ∈ shape, 0 < d)
include positive

omit c0Pos in
theorem matrices_pos : (∀ d ∈ (matricesOf shape).leading, 0 < d) ∧ 0 < (matricesOf shape).h ∧ 0 < (matricesOf shape).w := by
  rcases shape_cases some with ⟨n,rfl,view⟩ | ⟨leading,h,w,rfl,view⟩
  · rw [view]
    exact ⟨nofun,one_pos,positive n mem_cons_self⟩
  · rw [view]
    simp only [mem_append,mem_cons,not_mem_nil,or_false] at positive
    exact ⟨fun d there => positive d (.inl there),positive h (.inr (.inl rfl)),positive w (.inr (.inr rfl))⟩

omit c0Pos in
theorem tiles_accepted {loops : TileLoops} {padded tiles : List Nat} {layout : Layout (matricesOf shape).plain padded}
    {runs : List Run} (placed : TileRuns loops shape ((matricesOf shape).leading ++ tiles)
      ((matricesOf shape).plain.map ofNat) layout runs) (tiled : tiles ≠ []) (filled : ∀ d ∈ tiles, 0 < d)
    (limit : ((((matricesOf shape).leading ++ tiles).prod : Nat) : Int) ≤ kShapeItemNumMAX) :
    checkMatrixShape .nd (shape.map ofNat) ∧ isShapeValid (((matricesOf shape).leading ++ tiles).map ofNat) := by
  have room := layout.prod_le
  rw [plain_prod some,placed.paddedItems] at room
  constructor
  · exact isShapeValid_of_le shape positive some (by omega)
  · apply isShapeValid_of_le _ ?_ (append_ne_nil_of_right_ne_nil _ tiled) limit
    intro d there
    exact (mem_append.mp there).elim ((matrices_pos some positive).1 d) (filled d)

theorem nz_accepted (limit : (((matricesOf shape).nz c0).prod : Nat) ≤ kShapeItemNumMAX) :
    checkMatrixShape .nd (shape.map ofNat) ∧ isShapeValid (((matricesOf shape).nz c0).map ofNat) := by
  obtain ⟨_,hPos,wPos⟩ := matrices_pos some positive
  refine tiles_accepted some positive (nz_tileRuns some c0Pos) (cons_ne_nil _ _) ?_ limit
  simp only [forall_mem_cons]
  exact ⟨blocks_pos c0Pos wPos,blocks_pos (by decide) hPos,by decide,c0Pos,forall_mem_nil _⟩

theorem zz_accepted (limit : (((matricesOf shape).zz c0).prod : Nat) ≤ kShapeItemNumMAX) :
    checkMatrixShape .nd (shape.map ofNat) ∧ isShapeValid (((matricesOf shape).zz c0).map ofNat) := by
  obtain ⟨_,hPos,wPos⟩ := matrices_pos some positive
  refine tiles_accepted some positive (zz_tileRuns some c0Pos) (cons_ne_nil _ _) ?_ limit
  simp only [forall_mem_cons]
  exact ⟨blocks_pos c0Pos hPos,blocks_pos c0Pos wPos,c0Pos,c0Pos,forall_mem_nil _⟩

end Accepted

section Wide

variable {copy : TileCopy} {dst : List UInt8} {error : TransError} {w w0 : Nat}

theorem copyRow_error {head plainHead stride : Nat} (wide : 0 < w / w0)
    (fails : copy head plainHead w0 dst = .error error) : copyRow head plainHead stride w w0 copy dst = .error error := by
  have first : forLoop (w / w0) (fun w1Idx => copy (head + w1Idx * stride) (plainHead + w1Idx * w0) w0) dst =
      .error error := by
    apply forLoop_error wide
    rwa [zero_mul,zero_mul]
  rw [copyRow,first]
  rfl

variable {shape : List Nat} {c0 size : Nat}

theorem transFormatFromNdToFracNz_tooWide (some : shape ≠ []) (positive : ∀ d ∈ shape, 0 < d) (c0Pos : 0 < c0)
    (sizePos : 0 < size) (wide : c0 ≤ (matricesOf shape).w) (long : securecMemMaxLen < c0 * size) (data : List UInt8) :
    transFormatFromNdToFracNz
      ⟨data,shape.map ofNat,((matricesOf shape).nz c0).map ofNat,size,c0⟩ ((matricesOf shape).plain.map ofNat) =
      .error .memoryOperateFailed := by
  obtain ⟨leadingPos,hPos,_⟩ := matrices_pos some positive
  have room := ((matricesOf shape).nzLayout c0Pos).prod_le
  rw [plain_prod some,(nz_tileRuns some c0Pos).paddedItems] at room
  have items : 0 < shape.prod := prod_pos positive
  have bytes : ((matricesOf shape).nz c0).prod * size ≠ 0 :=
    Nat.ne_of_gt (mul_pos (lt_of_lt_of_le items room) sizePos)
  unfold transFormatFromNdToFracNz transFormatFromNd
  dsimp only
  rw [bytes_cast,if_neg bytes,Matrices.nz,tileLoops_eq _ _ _ _ _ c0Pos]
  apply forLoop_error (prod_pos leadingPos)
  apply forLoop_error hPos
  apply copyRow_error (Nat.div_pos wide c0Pos)
  simp only [zero_mul,add_zero]
  have rejected : checkProtected (((matricesOf shape).nz c0).prod * size) 0 (size * c0) =
      .error .memoryOperateFailed := by
    rw [mul_comm size]
    unfold checkProtected
    rw [if_neg (by omega)]
    exact if_pos (by omega)
  rw [copyElement,toNat_natCast,← Matrices.nz,rejected]
  rfl

end Wide

/-- One tile row of two gibibytes. -/
theorem wide_tile_fails : transFormatFractalNz .nd ⟨List.replicate 2147483648 0,[2147483648].map Int.ofNat,
      ((matricesOf [2147483648]).nz 2147483648).map Int.ofNat,(1 : Nat),(2147483648 : Nat)⟩ = .error .memoryOperateFailed ∧
    (((matricesOf [2147483648]).nz 2147483648).prod : Nat) ≤ kShapeItemNumMAX := by
  have view : matricesOf [2147483648] = ⟨[],1,2147483648⟩ := rfl
  have limit : (((matricesOf [2147483648]).nz 2147483648).prod : Nat) ≤ kShapeItemNumMAX := by
    rw [view,Matrices.nz,blocks_one (by decide),blocks_eq (by decide) (by decide)]
    decide
  obtain ⟨plainValid,tiledValid⟩ := nz_accepted (by decide) (by decide) (by decide) limit
  refine ⟨(transFormatToFractal_eq (by decide) plainValid tiledValid (nz_transShape (by decide) tiledValid) _).trans
    (transFormatFromNdToFracNz_tooWide (by decide) (by decide) (by decide) (by decide) ?_ (by decide) _),limit⟩
  rw [view]

/-- What the pair of transfers does with the tensors of a shape: the copies take every element once and stay inside the
tiles, and there is a way back. -/
structure Lossless (loops : TileLoops)
    (forward backward : TransArgs → List Int → Except TransError (List UInt8)) (shape tiledShape : List Nat)
    (hwShape : List Int) {plain padded : List Nat} (layout : Layout plain padded) (runs : List Run) (size c0 : Nat) : Prop where
  copies : ∀ copy dst, tileLoops loops hwShape (tiledShape.map Int.ofNat) copy dst = runs.foldlM (runCopy copy) dst
  once : (cellsOf runs).map Prod.snd = List.range shape.prod
  apart : ((cellsOf runs).map Prod.fst).Nodup
  inside : ∀ run ∈ runs, run.target + run.length ≤ tiledShape.prod
  roundTrip : ∀ data, data.length = shape.prod * size → ∃ tiled,
    forward ⟨data,shape.map Int.ofNat,tiledShape.map Int.ofNat,size,c0⟩ hwShape = .ok tiled ∧
    layout.Renders size data tiled ∧
    backward ⟨tiled,tiledShape.map Int.ofNat,shape.map Int.ofNat,size,c0⟩ hwShape = .ok data

theorem TileRuns.lossless {loops : TileLoops}
    {shape tiledShape plain padded : List Nat} {hwShape : List Int} {layout : Layout plain padded} {runs : List Run}
    (tile : TileRuns loops shape tiledShape hwShape layout runs) {size : Nat} (c0 : Nat) (sizePos : 0 < size)
    (small : ∀ run ∈ runs, run.length * size ≤ securecMemMaxLen) {fresh : Nat → List UInt8} (length : ∀ n, (fresh n).length = n) :
    Lossless loops (transFormatFromNd loops) (transFormatToNd loops fresh) shape tiledShape hwShape layout runs size c0 where
  copies := tile.copies
  once := by rw [tile.cells,layout.cells_snd,tile.plainItems]
  apart := by
    rw [tile.cells]
    exact layout.cells_apart
  inside run there := by
    have fits := Layout.run_fits (List.Perm.of_eq tile.cells) tile.nonempty run there
    rw [tile.paddedItems] at fits
    exact fits.1
  roundTrip data whole := by
    obtain ⟨tiled,forward,renders⟩ := transFormatFromNd_spec tile sizePos small whole
    exact ⟨tiled,forward,renders,transFormatToNd_spec tile sizePos small whole length renders⟩

/-- NZ and ZZ keep all bytes and pad with zeros when a tile row is within what a secure function takes, and every tensor with
a padded size within the limit passes all checks. -/
theorem fractal_lossless (memory : Nat → UInt8) {shape : List Nat} (some : shape ≠ []) {c0 size : Nat} (c0Pos : 0 < c0)
    (sizePos : 0 < size) (sizeFits : size ≤ securecMemMaxLen)
    (tileFits : (matricesOf shape).w < c0 ∨ c0 * size ≤ securecMemMaxLen) :
    Lossless fracNzLoops transFormatFromNdToFracNz (transFormatFromFracNzToNd memory) shape ((matricesOf shape).nz c0)
      ((matricesOf shape).plain.map Int.ofNat) ((matricesOf shape).nzLayout c0Pos) ((matricesOf shape).nzRuns c0) size c0 ∧
    Lossless fracZzLoops transFormatFromNdToFracZz transFormatFromFracZzToNd shape ((matricesOf shape).zz c0)
      ((matricesOf shape).plain.map Int.ofNat) ((matricesOf shape).zzLayout c0Pos) ((matricesOf shape).zzRuns c0) size c0 ∧
    ((∀ d ∈ shape, 0 < d) → (((matricesOf shape).nz c0).prod : Nat) ≤ kShapeItemNumMAX → ∀ data,
      transFormatFractalNz .nd ⟨data,shape.map Int.ofNat,((matricesOf shape).nz c0).map Int.ofNat,size,c0⟩ =
        transFormatFromNdToFracNz ⟨data,shape.map Int.ofNat,((matricesOf shape).nz c0).map Int.ofNat,size,c0⟩
          ((matricesOf shape).plain.map Int.ofNat) ∧
      transFormatFractalNzND memory .nd ⟨data,((matricesOf shape).nz c0).map Int.ofNat,shape.map Int.ofNat,size,c0⟩ =
        transFormatFromFracNzToNd memory ⟨data,((matricesOf shape).nz c0).map Int.ofNat,shape.map Int.ofNat,size,c0⟩
          ((matricesOf shape).plain.map Int.ofNat)) ∧
    ((∀ d ∈ shape, 0 < d) → (((matricesOf shape).zz c0).prod : Nat) ≤ kShapeItemNumMAX → ∀ data,
      transFormatFractalZz .nd ⟨data,shape.map Int.ofNat,((matricesOf shape).zz c0).map Int.ofNat,size,c0⟩ =
        transFormatFromNdToFracZz ⟨data,shape.map Int.ofNat,((matricesOf shape).zz c0).map Int.ofNat,size,c0⟩
          ((matricesOf shape).plain.map Int.ofNat) ∧
      transFormatFractalZzND .nd ⟨data,((matricesOf shape).zz c0).map Int.ofNat,shape.map Int.ofNat,size,c0⟩ =
        transFormatFromFracZzToNd ⟨data,((matricesOf shape).zz c0).map Int.ofNat,shape.map Int.ofNat,size,c0⟩
          ((matricesOf shape).plain.map Int.ofNat)) := by
  refine ⟨?_,?_,?_,?_⟩
  · exact (nz_tileRuns some c0Pos).lossless c0 sizePos
      (fun run there => run_small sizeFits tileFits (Matrices.nzRuns_length there)) (length_allocate memory)
  · exact (zz_tileRuns some c0Pos).lossless c0 sizePos
      (fun run there => run_small sizeFits tileFits (Matrices.zzRuns_length there)) (fun n => length_replicate)
  · intro positive limit data
    obtain ⟨plainValid,tiledValid⟩ := nz_accepted some c0Pos positive limit
    have trans := nz_transShape some tiledValid
    exact ⟨transFormatToFractal_eq sizePos plainValid tiledValid trans data,
      transFormatFromFractal_eq sizePos plainValid tiledValid trans data⟩
  · intro positive limit data
    obtain ⟨plainValid,tiledValid⟩ := zz_accepted some c0Pos positive limit
    have trans := zz_transShape some c0Pos tiledValid
    exact ⟨transFormatToFractal_eq sizePos plainValid tiledValid trans data,
      transFormatFromFractal_eq sizePos plainValid tiledValid trans data⟩

theorem fractal_lossless_three : ∃ tiled,
    transFormatFromNdToFracZz ⟨[1,2,3],[3].map Int.ofNat,((matricesOf [3]).zz 2).map Int.ofNat,(1 : Nat),(2 : Nat)⟩
      ((matricesOf [3]).plain.map Int.ofNat) = .ok tiled ∧
    ((matricesOf [3]).zzLayout (by decide : 0 < 2)).Renders 1 [1,2,3] tiled ∧
    transFormatFromFracZzToNd ⟨tiled,((matricesOf [3]).zz 2).map Int.ofNat,[3].map Int.ofNat,(1 : Nat),(2 : Nat)⟩
      ((matricesOf [3]).plain.map Int.ofNat) = .ok [1,2,3] :=
  (fractal_lossless (fun _ => 7) (by decide) (by decide) (by decide) (by decide) (.inr (by decide))).2.1.roundTrip
    [1,2,3] rfl

/-- Two matrices of one row of three elements, in tiles of two columns and two rows. -/
example : transFormatFractalZz .nd ⟨[1,2,3,4,5,6],[2,1,3],[2,1,2,2,2],1,2⟩ = .ok [1,2,0,0,3,0,0,0,4,5,0,0,6,0,0,0] := by
  decide

end GraphEngine.Formats
