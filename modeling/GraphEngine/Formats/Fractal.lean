import GraphEngine.Formats.FormatTransfer

/-! The transfers between ND and FRACTAL_NZ or FRACTAL_ZZ. The last two axes are a matrix cut into tiles; those of NZ come
column by column, those of ZZ row by row. A row is copied a tile's width at a time, the rest of it element by element. -/

namespace GraphEngine.Formats

open Lib.RowMajor Lib.ElementBuffer

inductive MatrixFormat where
  | nd
  | nchw
  | nhwc
  deriving DecidableEq,Repr

/-- `CheckShapeForTransShapeToFracNz` and the `CheckShape` of ZZ. -/
def checkMatrixShape (format : MatrixFormat) (shape : List Int) : Bool :=
  match format with
  | .nd => isShapeValid shape
  | .nchw => checkShapeValid shape 4
  | .nhwc => checkShapeValid shape 4

/-- What the two derivations of the shape have in common: the tiled shape, and the number, the height and the width of the
matrices. -/
def transShapeToFrac (single : Int → List Int) (tiled : Int → Int → List Int) (srcShape : List Int) :
    Except TransError (List Int × List Int) :=
  match srcShape.reverse with
  | [] => .error .undefined -- the number of leading axes, an unsigned size, is the size minus two
  | [n] => if isShapeValid (single n) then .ok (single n,[1,1,n]) else .error .shapeInvalid
  | w :: h :: front =>
    let leading := front.reverse
    let dstShape := leading ++ tiled h w
    if isShapeValid dstShape then .ok (dstShape,[getItemNumByShape leading,h,w]) else .error .shapeInvalid

def transShapeToFracNz (srcShape : List Int) (w0 : Int) : Except TransError (List Int × List Int) :=
  transShapeToFrac (fun n => [ceil n w0,1,kCubeSize,w0]) (fun h w => [ceil w w0,ceil h kCubeSize,kCubeSize,w0]) srcShape

def transShapeToFracZz (srcShape : List Int) (c0 : Int) : Except TransError (List Int × List Int) :=
  transShapeToFrac (fun n => [1,ceil n c0,c0,c0]) (fun h w => [ceil h c0,ceil w c0,c0,c0]) srcShape

def countBackwards (shape : List Int) (i : Nat) : Nat := count shape (shape.length - i)

/-- A copy of some elements: where they are in the tiles, where in the matrices, and how many. -/
abbrev TileCopy := Nat → Nat → Nat → List UInt8 → Except TransError (List UInt8)

/-- The two innermost loops: a row of a matrix, the next tile being `stride` elements after the last. -/
def copyRow (head plainHead stride w w0 : Nat) (copy : TileCopy) (dst : List UInt8) : Except TransError (List UInt8) := do
  let numW1 := w / w0
  let dst ← forLoop numW1 (fun w1Idx => copy (head + w1Idx * stride) (plainHead + w1Idx * w0) w0) dst
  let w1Head := numW1 * w0
  forLoop (w - w1Head) (fun w0Idx => copy (head + numW1 * stride + w0Idx) (plainHead + (w1Head + w0Idx)) 1) dst

def fracNzLoops (times h w w1 h1 h0 w0 : Nat) (copy : TileCopy) : List UInt8 → Except TransError (List UInt8) :=
  let hw := h * w
  let h1h0 := h1 * h0
  let h1h0w0 := h1h0 * w0
  let w1h1h0w0 := w1 * h1h0w0
  forLoop times fun timesIdx =>
    let timesHead := timesIdx * w1h1h0w0
    let plainTimesHead := timesIdx * hw
    forLoop h fun h1h0Idx =>
      let h1h0Head := timesHead + h1h0Idx * w0
      let plainHHead := plainTimesHead + h1h0Idx * w
      copyRow h1h0Head plainHHead h1h0w0 w w0 copy

def fracZzLoops (times h w h1 w1 h0 w0 : Nat) (copy : TileCopy) : List UInt8 → Except TransError (List UInt8) :=
  let hw := h * w
  let h0w0 := h0 * w0
  let w1h0w0 := w1 * h0w0
  let h1w1h0w0 := h1 * w1h0w0
  forLoop times fun timesIdx =>
    let timesHead := timesIdx * h1w1h0w0
    let plainTimesHead := timesIdx * hw
    forLoop h1 fun h1Idx =>
      let h1Head := timesHead + h1Idx * w1h0w0
      let plainH1Head := h1Idx * h0
      -- the loop also ends with the last row of the matrix
      forLoop (min h0 (h - plainH1Head)) fun h0Idx =>
        let h0Head := h1Head + h0Idx * w0
        let plainHHead := plainTimesHead + (plainH1Head + h0Idx) * w
        copyRow h0Head plainHHead h0w0 w w0 copy

abbrev TileLoops : Type := Nat → Nat → Nat → Nat → Nat → Nat → Nat → TileCopy → List UInt8 → Except TransError (List UInt8)

/-- The loops at the axes of the two shapes; the division by the width of a tile traps at zero. -/
def tileLoops (loops : TileLoops)
    (hwShape tiledShape : List Int) (copy : TileCopy) (dst : List UInt8) : Except TransError (List UInt8) :=
  if countBackwards tiledShape 1 = 0 then .error .undefined
  else
    loops (count hwShape 0) (count hwShape 1) (count hwShape 2) (countBackwards tiledShape 4) (countBackwards tiledShape 3)
      (countBackwards tiledShape 2) (countBackwards tiledShape 1) copy dst

def transFormatFromNd
    (loops : TileLoops)
    (args : TransArgs) (hwShape : List Int) : Except TransError (List UInt8) :=
  let size := args.size.toNat
  let dstSize := (getItemNumByShape args.dstShape * args.size).toNat
  if dstSize = 0 then .ok []
  else
    tileLoops loops hwShape args.dstShape
      (fun tile plain length => copyElement args.data dstSize (tile * size) (plain * size) (size * length))
      (List.replicate dstSize 0)

def transFormatToNd
    (loops : TileLoops)
    (fresh : Nat → List UInt8) (args : TransArgs) (dstHwShape : List Int) : Except TransError (List UInt8) :=
  let size := args.size.toNat
  let dstSize := (getItemNumByShape args.dstShape * args.size).toNat
  if dstSize = 0 then .ok []
  else
    tileLoops loops dstHwShape args.srcShape
      (fun tile plain length => copyElement args.data dstSize (plain * size) (tile * size) (size * length)) (fresh dstSize)

def transFormatFromNdToFracNz : TransArgs → List Int → Except TransError (List UInt8) := transFormatFromNd fracNzLoops

def transFormatFromFracNzToNd (memory : Nat → UInt8) : TransArgs → List Int → Except TransError (List UInt8) :=
  transFormatToNd fracNzLoops (allocate memory)

def transFormatFromNdToFracZz : TransArgs → List Int → Except TransError (List UInt8) := transFormatFromNd fracZzLoops

def transFormatFromFracZzToNd : TransArgs → List Int → Except TransError (List UInt8) :=
  transFormatToNd fracZzLoops (List.replicate · 0)

section
variable (transShape : List Int → Int → Except TransError (List Int × List Int))
  (convert : TransArgs → List Int → Except TransError (List UInt8)) (format : MatrixFormat) (args : TransArgs)

/-- What the two `TransFormat` to tiles have in common. -/
def transFormatToFractal : Except TransError (List UInt8) :=
  if args.size ≤ 0 then .error .datatypeInvalid
  else if ¬checkMatrixShape format args.srcShape ∨ ¬isShapeValid args.dstShape then .error .shapeInvalid
  else do
    let (expectShape,hwShape) ← transShape args.srcShape args.c0
    if args.dstShape ≠ [] ∧ args.dstShape ≠ expectShape then .error .shapeInvalid else convert args hwShape

/-- What the two `TransFormat` from tiles have in common. -/
def transFormatFromFractal : Except TransError (List UInt8) :=
  if args.size ≤ 0 then .error .datatypeInvalid
  else if ¬isShapeValid args.srcShape ∨ ¬checkMatrixShape format args.dstShape then .error .shapeInvalid
  else do
    let (expectSrcShape,hwShape) ← transShape args.dstShape args.c0
    if args.srcShape ≠ expectSrcShape then .error .shapeInvalid else convert args hwShape

end

/-- `FormatTransferFractalNz::TransFormat`. -/
def transFormatFractalNz : MatrixFormat → TransArgs → Except TransError (List UInt8) :=
  transFormatToFractal transShapeToFracNz transFormatFromNdToFracNz

/-- `FormatTransferFractalNzND::TransFormat`. -/
def transFormatFractalNzND (memory : Nat → UInt8) : MatrixFormat → TransArgs → Except TransError (List UInt8) :=
  transFormatFromFractal transShapeToFracNz (transFormatFromFracNzToNd memory)

/-- `FormatTransferFractalZz::TransFormat`. -/
def transFormatFractalZz : MatrixFormat → TransArgs → Except TransError (List UInt8) :=
  transFormatToFractal transShapeToFracZz transFormatFromNdToFracZz

/-- `FormatTransferFractalZzND::TransFormat`. -/
def transFormatFractalZzND : MatrixFormat → TransArgs → Except TransError (List UInt8) :=
  transFormatFromFractal transShapeToFracZz transFormatFromFracZzToNd

end GraphEngine.Formats
