import GraphEngine.Formats.FractalZ

/-! FRACTAL_Z_C04: the channels of a kernel are padded to four and written one after the other, C0 of them to a column of a
block. The way there pads, transposes, pads rows and transposes again; the way back is one formula. -/

namespace GraphEngine.Formats

open Lib.RowMajor Lib.ElementBuffer

def kMaxDimsNumC : Int := 4

def kC04 : Int := 4

def kCubeK : Int := 16

def checkGroupsSupport (groups : Int) : Except TransError Unit :=
  if groups = 0 ∨ groups = 1 then .ok () else .error .paramInvalid

def checkedMul (a b : Int) : Except TransError Int := if a * b < -2 ^ 63 ∨ 2 ^ 63 ≤ a * b then .error .failed else .ok (a * b)

def getTotalDataSize (shape : List Int) (dtypeSize : Int) : Except TransError Int := do
  let t1 ← checkedMul (dim shape 2) (dim shape 3)
  let t2 ← checkedMul (dim shape 0) (dim shape 1)
  let totalEleCnt ← checkedMul t1 t2
  checkedMul totalEleCnt dtypeSize

/-- `ge::PtrAdd` comes from a header outside the repository; this is the copy that `dflow` has in `def_types.h`. -/
def ptrAdd (maxBufLen idx : Nat) : Option Nat := if idx < maxBufLen then some idx else none

/-- `memcpy_s` between two positions, with what the caller returns when it fails. A negative room is a huge unsigned one. -/
def memcpyS (failure : TransError) (data : List UInt8) (dst : List UInt8) (target : Option Nat) (destMax : Int)
    (source : Option Nat) (size : Nat) : Except TransError (List UInt8) :=
  match target,source with
  | some target,some source =>
    if destMax ≤ 0 ∨ (securecMemMaxLen : Int) < destMax ∨ destMax < size then .error failure
    else if dst.length < target + size ∨ data.length < source + size then .error .undefined
    else .ok (overwrite dst target ((data.drop source).take size))
  | _,_ => .error failure

section Shapes

def transShapeNchwToFzC04 (srcShape : List Int) (size : Int) : Except TransError (List Int) :=
  if ¬checkShapeValid srcShape 4 then .error .shapeInvalid
  else
    let c0 := getCubeSizeByDataType size
    if c0 < 0 then .error .datatypeInvalid
    else
      let chw := kC04 * dim srcShape 2 * dim srcShape 3
      let dstShape := [ceil chw c0,ceil (dim srcShape 0) kCubeK,kCubeK,c0]
      if isShapeValid dstShape then .ok dstShape else .error .shapeInvalid

def transShapeFromSrcToNchw (format : Format) (srcShape : List Int) : Except TransError (List Int) :=
  match permArgs format .nchw with
  | none => .ok srcShape
  | some perm => if isShapeArgValid srcShape perm then .ok (perm.map (dim srcShape)) else .error .failed

/-- `FormatTransfer4DToFZC04::TransShape`. -/
def transShapeFzC04 (format : Format) (srcShape : List Int) (size : Int) : Except TransError (List Int) :=
  if size ≤ 0 then .error .datatypeInvalid
  else do
    let nchwShape ← transShapeFromSrcToNchw format srcShape
    transShapeNchwToFzC04 nchwShape size

end Shapes

section Forward

/-- The copies of `PaddingNC`; the state is the destination with the room that is left by the program's account. -/
def paddingLoops (data : List UInt8) (n c h w dstSize size : Nat) : List UInt8 × Int → Except TransError (List UInt8 × Int) :=
  forLoop n fun i => forLoop c fun j state => do
    let block := h * w * size
    let dstOffset := (i * 4 * h * w + j * h * w) * size
    let dst ← memcpyS .memoryOperateFailed data state.1 (ptrAdd dstSize dstOffset) state.2
      (some ((i * c * h * w + j * h * w) * size)) block
    .ok (dst,state.2 - block)

def paddingNC (args : TransArgs) : Except TransError TransArgs :=
  if ¬checkShapeValid args.srcShape 4 then .error .shapeInvalid
  else if kMaxDimsNumC < dim args.srcShape 1 then .error .shapeInvalid
  else do
    let shape := [ceil (dim args.srcShape 0) kCubeK * kCubeK,kMaxDimsNumC,dim args.srcShape 2,dim args.srcShape 3]
    let dstSize ← getTotalDataSize shape args.size
    if dstSize = 0 then .ok { args with srcShape := shape }
    else do
      let dst ← (clearedBuffer dstSize.toNat).mapError fun _ => .failed
      let padded ← paddingLoops args.data (count args.srcShape 0) (count args.srcShape 1) (count args.srcShape 2)
        (count args.srcShape 3) dstSize.toNat args.size.toNat (dst,dstSize)
      .ok { args with srcShape := shape,data := padded.1 }

def rowLoop (data : List UInt8) (dstSize block stride : Nat) : Nat → Nat → Int → List UInt8 → Except TransError (List UInt8)
  | 0,_,_,dst => .ok dst
  | left + 1,k,protectedSize,dst => do
    let dst ← memcpyS .memoryOperateFailed data dst (ptrAdd dstSize (k * stride)) protectedSize (some (k * block)) block
    if protectedSize - stride = 0 then .ok dst else rowLoop data dstSize block stride left (k + 1) (protectedSize - stride) dst

def transFormatNchwToFzC04 (memory : Nat → UInt8) (args : TransArgs) : Except TransError (List UInt8) := do
  let n := count args.srcShape 0
  let c := count args.srcShape 1
  let h := count args.srcShape 2
  let w := count args.srcShape 3
  let c0 := getCubeSizeByDataType args.size
  let transposed ← transpose memory args.data args.srcShape args.size [0,2,3,1]
  if transposed.length ≠ n * c * h * w * args.size.toNat then .error .paramInvalid
  else
    let shape := [ceil n kCubeK,kCubeK,ceil (h * w * c : Nat) c0,c0]
    let dstSize ← getTotalDataSize shape args.size
    if dstSize = 0 then .ok []
    else do
      let cleared ← clearedBuffer dstSize.toNat
      let rows ← rowLoop transposed dstSize.toNat (c * h * w * args.size.toNat)
        (dim shape 2 * c0 * args.size).toNat n 0 dstSize cleared
      transpose memory rows shape args.size [2,0,1,3]

/-- `BuildTransArgsNchwToFzC04`. -/
def buildTransArgsNchwToFzC04 (memory : Nat → UInt8) (format : Format) (args : TransArgs) : Except TransError TransArgs :=
  match format with
  | .nchw => .ok args
  | format => do
    let nchwShape ← transShapeFromSrcToNchw format args.srcShape
    let data ← (transFormatTranspose memory format .nchw { args with dstShape := nchwShape }).mapError fun _ => .failed
    .ok { args with data := data,srcShape := nchwShape,dstShape := [] }

/-- `FormatTransfer4DToFZC04::TransFormat`. -/
def transFormat4DToFzC04 (memory : Nat → UInt8) (format : Format) (groups : Int) (args : TransArgs) :
    Except TransError (List UInt8) :=
  if groups ≠ 0 ∧ groups ≠ 1 then .error .unsupported
  else do
    let nchw ← buildTransArgsNchwToFzC04 memory format args
    let padded ← paddingNC nchw
    let expectShape ← transShapeFzC04 .nchw padded.srcShape padded.size
    if padded.dstShape ≠ [] ∧ padded.dstShape ≠ expectShape then .error .shapeInvalid
    else transFormatNchwToFzC04 memory padded

end Forward

section Backward

/-- Where the way back reads the element; `c1` is the number of blocks of C0 channels. -/
def idxFz (wDim c1 n1 cubeK c h w n : Nat) : Nat :=
  let commonFactor := h * wDim * c1 * 4 + w * 4 + c % 4
  commonFactor / cubeK * (cubeK * 16 * n1) + n / 16 * (cubeK * 16) + n % 16 * cubeK + commonFactor % cubeK

def fzC04Loops (data : List UInt8) (hDim wDim cDim nDim c1 n1 cubeK dstSize srcSize size : Nat) :
    List UInt8 × Int → Except TransError (List UInt8 × Int) :=
  forLoop cDim fun c => forLoop hDim fun h => forLoop wDim fun w => forLoop nDim fun n state => do
    let idx4d := h * wDim * cDim * nDim + w * cDim * nDim + c * nDim + n
    let dst ← memcpyS .failed data state.1 (ptrAdd dstSize (idx4d * size)) state.2
      (ptrAdd srcSize (idxFz wDim c1 n1 cubeK c h w n * size)) size
    .ok (dst,state.2 - size)

def transFormatFzC04ToHwcn (groups : Int) (args : TransArgs) : Except TransError (List UInt8) :=
  let hDim := count args.dstShape 0
  let wDim := count args.dstShape 1
  let cDim := count args.dstShape 2
  let nDim := count args.dstShape 3
  if cDim = 0 ∨ nDim = 0 then .error .graphFailed
  else do
    let cubeK := getCubeSizeByDataType args.size
    checkGroupsSupport groups
    let groups := if groups = 0 then 1 else groups
    let eMult := min (lcm ((lcm cDim cubeK).tdiv cDim) ((lcm nDim kCubeSize).tdiv nDim)) groups
    let cinOpt := ceil (eMult * cDim) cubeK * cubeK
    let c1 := cinOpt.tdiv cubeK
    let n1 := ceil (eMult * nDim) kCubeSize
    let dstSize ← getTotalDataSize args.dstShape args.size
    let srcSize ← getTotalDataSize args.srcShape args.size
    if dstSize = 0 then .error .graphFailed
    else do
      let dst ← (clearedBuffer dstSize.toNat).mapError fun _ => .failed
      let final ← fzC04Loops args.data hDim wDim cDim nDim c1.toNat n1.toNat cubeK.toNat dstSize.toNat srcSize.toNat
        args.size.toNat (dst,dstSize)
      .ok final.1

/-- `FormatTransferFZC04To4D::TransFormat` to HWCN. -/
def transFormatFzC04To4D (groups : Int) (args : TransArgs) : Except TransError (List UInt8) := do
  let expectShape ← (transShapeFzC04 .hwcn args.dstShape args.size).mapError fun _ => .failed
  if expectShape ≠ args.srcShape then .error .shapeInvalid
  else transFormatFzC04ToHwcn groups args

end Backward

end GraphEngine.Formats
