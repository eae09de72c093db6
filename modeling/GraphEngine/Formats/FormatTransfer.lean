import Mathlib.Data.UInt
import GraphEngine.Lib.RowMajor
import GraphEngine.Lib.ElementBuffer

/-! The transfers between NCHW, NHWC and NC1HWC0, with the channels in blocks of C0, and the transposition of
four-dimensional formats. A buffer is a list of bytes; new memory has arbitrary contents. -/

namespace GraphEngine.Formats

open Lib.RowMajor Lib.ElementBuffer

def kShapeItemNumMAX : Int := 1099511627776

def kCubeSize : Int := 16

/-- The bound of `memcpy_s` in the secure C library, whose headers are not part of the repository. -/
def securecMemMaxLen : Nat := 0x7fffffff

inductive TransError where
  | datatypeInvalid
  | shapeInvalid
  | paramInvalid
  | formatInvalid
  | memoryOperateFailed
  | failed
  | graphFailed
  | unsupported
  /-- Memory outside of a buffer is read or written, or a division traps. -/
  | undefined
  deriving DecidableEq,Repr

/-- The size is that of the data type, and C0 the one that the five-dimensional format carries. -/
structure TransArgs where
  data : List UInt8
  srcShape : List Int
  dstShape : List Int
  size : Int
  c0 : Int

def getItemNumByShape (shape : List Int) : Int := shape.foldl (· * ·) 1

def isShapeValidFrom (num : Int) : List Int → Bool
  | [] => true
  | dim :: rest =>
    if dim < 0 then false
    else if dim ≠ 0 ∧ kShapeItemNumMAX.tdiv dim < num then false
    else isShapeValidFrom (num * dim) rest

def isShapeValid (shape : List Int) : Bool := !shape.isEmpty && isShapeValidFrom 1 shape

def checkShapeValid (shape : List Int) (expectDims : Int) : Bool :=
  if expectDims ≤ 0 ∨ shape.length ≠ expectDims.toNat then false else isShapeValid shape

def getCubeSizeByDataType (size : Int) : Int :=
  if size ≤ 0 then -1 else if size = 1 then kCubeSize * 2 else kCubeSize

def ceil (n1 n2 : Int) : Int := if n1 = 0 then 0 else if n2 ≠ 0 then (n1 - 1).tdiv n2 + 1 else 0

def dim (shape : List Int) (i : Nat) : Int := shape.getD i 0

def count (shape : List Int) (i : Nat) : Nat := (dim shape i).toNat

/-- `TransShapeNchwToNc1hwc0` and, with the other order of the axes, `TransShapeNhwcToNc1hwc0`. -/
def transShapeToNc1hwc0 (n c h w size cubeSize : Int) : Except TransError (List Int) :=
  let c0 := if cubeSize ≤ 0 then getCubeSizeByDataType size else cubeSize
  if c0 ≤ 0 then .error .datatypeInvalid
  else
    let dstShape := [n,ceil c c0,h,w,c0]
    if checkShapeValid dstShape 5 then .ok dstShape else .error .shapeInvalid

def transShapeNchwToNc1hwc0 (srcShape : List Int) (size cubeSize : Int) : Except TransError (List Int) :=
  let c0 := if cubeSize ≤ 0 then getCubeSizeByDataType size else cubeSize
  if c0 ≤ 0 then .error .datatypeInvalid
  else if ¬checkShapeValid srcShape 4 then .error .shapeInvalid
  else transShapeToNc1hwc0 (dim srcShape 0) (dim srcShape 1) (dim srcShape 2) (dim srcShape 3) size cubeSize

def transShapeNhwcToNc1hwc0 (srcShape : List Int) (size cubeSize : Int) : Except TransError (List Int) :=
  transShapeToNc1hwc0 (dim srcShape 0) (dim srcShape 3) (dim srcShape 1) (dim srcShape 2) size cubeSize

def checkArgsForNchwToNc1hwc0 (args : TransArgs) : Except TransError Unit := do
  let expect5dShape ← transShapeNchwToNc1hwc0 args.srcShape args.size args.c0
  if expect5dShape ≠ args.dstShape then .error .shapeInvalid else .ok ()

def checkArgsForNhwcToNc1hwc0 (args : TransArgs) : Except TransError Unit :=
  if args.size ≤ 0 then .error .datatypeInvalid
  else if ¬checkShapeValid args.srcShape 4 then .error .shapeInvalid
  else if ¬checkShapeValid args.dstShape 5 then .error .shapeInvalid
  else do
    let expectDstShape ← transShapeNhwcToNc1hwc0 args.srcShape args.size args.c0
    if args.dstShape ≠ expectDstShape then .error .shapeInvalid else .ok ()

/-- The check of the two transfers back; `axes` are the positions of N, C, H and W in the destination. -/
def checkArgsFromNc1hwc0 (axes : Nat × Nat × Nat × Nat) (args : TransArgs) : Except TransError Unit :=
  let (axisN,axisC,axisH,axisW) := axes
  if args.size ≤ 0 then .error .datatypeInvalid
  else if ¬checkShapeValid args.srcShape 5 then .error .shapeInvalid
  else if ¬checkShapeValid args.dstShape 4 then .error .shapeInvalid
  else if args.c0 ≤ 0 then .error .datatypeInvalid
  else if dim args.srcShape 2 ≠ dim args.dstShape axisH ∨ dim args.srcShape 3 ≠ dim args.dstShape axisW ∨
      dim args.srcShape 0 ≠ dim args.dstShape axisN ∨ dim args.srcShape 4 ≠ args.c0 ∨
      dim args.srcShape 1 ≠ ceil (dim args.dstShape axisC) args.c0 then .error .shapeInvalid
  else .ok ()

def checkArgsForNc1hwc0ToNchw : TransArgs → Except TransError Unit := checkArgsFromNc1hwc0 (0,1,2,3)

def checkArgsForNc1hwc0ToNhwc : TransArgs → Except TransError Unit := checkArgsFromNc1hwc0 (0,3,1,2)

variable (memory : Nat → UInt8)

/-- `new uint8_t[size]`. -/
def allocate (size : Nat) : List UInt8 := (List.range size).map memory

/-- The checks on the destination that come before `memcpy_s` and `memset_s` write. -/
def checkProtected (totalSize dstOffset size : Nat) : Except TransError Unit :=
  if totalSize < dstOffset then .error .paramInvalid
  else
    let protectedSize := min (totalSize - dstOffset) securecMemMaxLen
    if protectedSize = 0 ∨ protectedSize < size then .error .memoryOperateFailed else .ok ()

def copyElement (data : List UInt8) (totalSize dstOffset srcOffset size : Nat) (dst : List UInt8) :
    Except TransError (List UInt8) := do
  checkProtected totalSize dstOffset size
  if data.length < srcOffset + size then .error .undefined
  else .ok (overwrite dst dstOffset ((data.drop srcOffset).take size))

def clearElement (totalSize dstOffset size : Nat) (dst : List UInt8) : Except TransError (List UInt8) := do
  checkProtected totalSize dstOffset size
  .ok (overwrite dst dstOffset (List.replicate size 0))

def getDstDataAfterTransOfNchw2Nc1hwc0 (args : TransArgs) (size totalSize : Nat) :
    Except TransError (List UInt8) :=
  let n := count args.srcShape 0
  let c := count args.srcShape 1
  let h := count args.srcShape 2
  let w := count args.srcShape 3
  if args.c0 ≤ 0 then .error .datatypeInvalid
  else
    let c0 := args.c0.toNat
    let c1 := (((c : Int) - 1).tdiv args.c0 + 1).toNat
    let hw := h * w
    let hwc0 := hw * c0
    let c1hwc0 := c1 * hwc0
    forLoop n (fun nIdx =>
      let nHeadAddr := nIdx * c1hwc0
      forLoop c1 fun c1Idx =>
        let c1HeadAddr := nHeadAddr + c1Idx * hwc0
        forLoop h fun hIdx =>
          let wc0 := w * c0
          let hHeadAddr := c1HeadAddr + hIdx * wc0
          forLoop w fun wIdx =>
            let wHeadAddr := hHeadAddr + wIdx * c0
            forLoop c0 fun c0Idx dst =>
              let dstOffset := (c0Idx + wHeadAddr) * size
              let cIdx := c0Idx + c1Idx * c0
              if cIdx < c then
                let chw := c * hw
                let srcIdx := nIdx * chw + cIdx * hw + hIdx * w + wIdx
                copyElement args.data totalSize dstOffset (srcIdx * size) size dst
              else clearElement totalSize dstOffset size dst)
      (allocate memory totalSize)

def getDstDataAfterTransNhwcToNc1hwc0 (args : TransArgs) (size totalSize : Nat) :
    Except TransError (List UInt8) :=
  let n := count args.srcShape 0
  let h := count args.srcShape 1
  let w := count args.srcShape 2
  let c := count args.srcShape 3
  let c1 := count args.dstShape 1
  let c0 := count args.dstShape 4
  let wc := w * c
  let hwc := h * wc
  let wc0 := w * c0
  let hwc0 := h * wc0
  let c1hwc0 := c1 * hwc0
  forLoop n (fun nIdx =>
    let nHeadAddr := nIdx * c1hwc0
    forLoop c1 fun c1Idx =>
      let c1HeadAddr := nHeadAddr + c1Idx * hwc0
      forLoop h fun hIdx =>
        let hHeadAddr := c1HeadAddr + hIdx * wc0
        forLoop w fun wIdx =>
          let wHeadAddr := hHeadAddr + wIdx * c0
          forLoop c0 fun c0Idx dst =>
            let dstOffset := (c0Idx + wHeadAddr) * size
            let cIdx := c0Idx + c1Idx * c0
            let srcIdx := nIdx * hwc + hIdx * wc + wIdx * c + cIdx
            if cIdx < c then copyElement args.data totalSize dstOffset (srcIdx * size) size dst
            else clearElement totalSize dstOffset size dst)
    (allocate memory totalSize)

def getDstDataAfterTransForNc1hwc0ToNchw (args : TransArgs) (size totalSize : Nat) :
    Except TransError (List UInt8) :=
  let h := count args.srcShape 2
  let w := count args.srcShape 3
  let n := count args.srcShape 0
  let c1 := count args.srcShape 1
  let c0 := count args.srcShape 4
  let c := count args.dstShape 1
  let hw := h * w
  let chw := c * hw
  let wc0 := w * c0
  let hwc0 := h * wc0
  let c1hwc0 := c1 * hwc0
  forLoop n (fun nIdx =>
    let nHeadAddr := nIdx * chw
    forLoop c fun cIdx =>
      let cHeadAddr := nHeadAddr + cIdx * hw
      forLoop h fun hIdx =>
        let hHeadAddr := cHeadAddr + hIdx * w
        forLoop w fun wIdx dst =>
          let dstIdx := hHeadAddr + wIdx
          let c1Idx := cIdx / c0
          let c0Idx := cIdx % c0
          let srcIdx := nIdx * c1hwc0 + c1Idx * hwc0 + hIdx * wc0 + wIdx * c0 + c0Idx
          copyElement args.data totalSize (dstIdx * size) (srcIdx * size) size dst)
    (allocate memory totalSize)

def getDstDataForNc1hwc0ToNhwc (args : TransArgs) (size totalSize : Nat) :
    Except TransError (List UInt8) :=
  let h := count args.srcShape 2
  let w := count args.srcShape 3
  let n := count args.srcShape 0
  let c1 := count args.srcShape 1
  let c0 := count args.srcShape 4
  let c := count args.dstShape 3
  let wc := w * c
  let hwc := h * wc
  let wc0 := w * c0
  let hwc0 := h * wc0
  let c1hwc0 := c1 * hwc0
  forLoop n (fun nIdx =>
    let nHeadAddr := nIdx * hwc
    forLoop h fun hIdx =>
      let hHeadAddr := nHeadAddr + hIdx * wc
      forLoop w fun wIdx =>
        let wHeadAddr := hHeadAddr + wIdx * c
        forLoop c fun cIdx dst =>
          let dstIdx := wHeadAddr + cIdx
          let c1Idx := cIdx / c0
          let c0Idx := cIdx % c0
          let srcIdx := nIdx * c1hwc0 + c1Idx * hwc0 + hIdx * wc0 + wIdx * c0 + c0Idx
          copyElement args.data totalSize (dstIdx * size) (srcIdx * size) size dst)
    (allocate memory totalSize)

/-- What the four `TransFormat` have in common after the check of the arguments: `invalid` is the error for a shape
without elements that does not belong to empty data. -/
def convertWith (getDstData : TransArgs → Nat → Nat → Except TransError (List UInt8)) (invalid : TransError)
    (args : TransArgs) : Except TransError (List UInt8) :=
  let totalSize := getItemNumByShape args.dstShape * args.size
  if totalSize ≤ 0 then
    if totalSize = 0 ∧ getItemNumByShape args.srcShape = 0 then .ok [] else .error invalid
  else getDstData args args.size.toNat totalSize.toNat

def convertNchwNc1hwc0 : TransArgs → Except TransError (List UInt8) :=
  convertWith (getDstDataAfterTransOfNchw2Nc1hwc0 memory) .shapeInvalid

def convertNhwcNc1hwc0 : TransArgs → Except TransError (List UInt8) :=
  convertWith (getDstDataAfterTransNhwcToNc1hwc0 memory) .datatypeInvalid

def convertNc1hwc0Nchw : TransArgs → Except TransError (List UInt8) :=
  convertWith (getDstDataAfterTransForNc1hwc0ToNchw memory) .paramInvalid

def convertNc1hwc0Nhwc : TransArgs → Except TransError (List UInt8) :=
  convertWith (getDstDataForNc1hwc0ToNhwc memory) .shapeInvalid

/-- `FormatTransferNchwNc1hwc0::TransFormat`. -/
def transFormatNchwNc1hwc0 (args : TransArgs) : Except TransError (List UInt8) := do
  checkArgsForNchwToNc1hwc0 args
  convertNchwNc1hwc0 memory args

def transFormatNhwcNc1hwc0 (args : TransArgs) : Except TransError (List UInt8) := do
  checkArgsForNhwcToNc1hwc0 args
  convertNhwcNc1hwc0 memory args

def transFormatNc1hwc0Nchw (args : TransArgs) : Except TransError (List UInt8) := do
  checkArgsForNc1hwc0ToNchw args
  convertNc1hwc0Nchw memory args

def transFormatNc1hwc0Nhwc (args : TransArgs) : Except TransError (List UInt8) := do
  checkArgsForNc1hwc0ToNhwc args
  convertNc1hwc0Nhwc memory args

section Transposition

inductive Format where
  | nchw
  | nhwc
  | hwcn
  | chwn
  deriving DecidableEq,Repr

def permArgs : Format → Format → Option (List Nat)
  | .nchw,.nhwc => some [0,2,3,1]
  | .nchw,.hwcn => some [2,3,1,0]
  | .nchw,.chwn => some [1,2,3,0]
  | .nhwc,.nchw => some [0,3,1,2]
  | .nhwc,.chwn => some [3,1,2,0]
  | .nhwc,.hwcn => some [1,2,3,0]
  | .hwcn,.nchw => some [3,2,0,1]
  | .hwcn,.nhwc => some [3,0,1,2]
  | .hwcn,.chwn => some [2,0,1,3]
  | .chwn,.nchw => some [3,0,1,2]
  | .chwn,.nhwc => some [3,1,2,0]
  | .chwn,.hwcn => some [1,2,0,3]
  | .nchw,.nchw => none
  | .nhwc,.nhwc => none
  | .hwcn,.hwcn => none
  | .chwn,.chwn => none

def isShapeArgValid (srcShape : List Int) (permArg : List Nat) : Bool :=
  !srcShape.isEmpty && srcShape.all (0 ≤ ·) && permArg.length == srcShape.length &&
    permArg.all (· < permArg.length) && permArg.Nodup

def genHeads : List Nat → List Nat
  | [] => []
  | [_] => [1]
  | _ :: next :: shape => (next * (genHeads (next :: shape)).headD 1) :: genHeads (next :: shape)

def genOffset (offsets indexes : List Nat) : Nat := (List.zipWith (· * ·) offsets indexes).sum

/-- The carry of `AddOne` from a position to the ones before it. -/
def carry (shape : List Nat) : Nat → List Nat → List Nat
  | 0,indexes => indexes
  | i + 1,indexes =>
    if shape.getD (i + 1) 0 ≤ indexes.getD (i + 1) 0 then carry shape i ((indexes.set (i + 1) 0).modify i (· + 1))
    else indexes

def addOne (shape indexes : List Nat) : List Nat :=
  carry shape (indexes.length - 1) (indexes.modify (indexes.length - 1) (· + 1))

def transShapeByPerm (srcShape permArg : List Nat) : List Nat := permArg.map fun perm => srcShape.getD perm 0

/-- The loop of `Transpose`, with the number of elements that are left. -/
def transposeLoop (src : List UInt8) (dstShape srcHeads : List Nat) (dataSize dstSize : Nat) :
    Nat → Nat → List Nat → List UInt8 → Except TransError (List UInt8)
  | 0,_,_,dst => .ok dst
  | left + 1,dstIndex,dstIndexes,dst => do
    let dst ← copyElement src dstSize (dstIndex * dataSize) (genOffset srcHeads dstIndexes * dataSize) dataSize dst
    transposeLoop src dstShape srcHeads dataSize dstSize left (dstIndex + 1) (addOne dstShape dstIndexes) dst

def transpose (src : List UInt8) (srcShape : List Int) (size : Int) (permArg : List Nat) :
    Except TransError (List UInt8) :=
  if size < 0 ∨ ¬isShapeArgValid srcShape permArg then .error .paramInvalid
  else
    let shape := srcShape.map Int.toNat
    let dstShape := transShapeByPerm shape permArg
    let srcHeads := transShapeByPerm (genHeads shape) permArg
    let dstEleNum := (getItemNumByShape (dstShape.map Int.ofNat)).toNat
    let dstSize := size.toNat * dstEleNum
    if dstEleNum = 0 then .ok []
    else
      transposeLoop src dstShape srcHeads size.toNat dstSize dstEleNum 0 (dstShape.map fun _ => 0)
        (allocate memory dstSize)

/-- `FormatTransferTranspose::TransFormat`. -/
def transFormatTranspose (src dst : Format) (args : TransArgs) :
    Except TransError (List UInt8) :=
  match permArgs src dst with
  | none => .error .formatInvalid
  | some perm =>
    if ¬isShapeArgValid args.srcShape perm then .error .shapeInvalid
    else if args.dstShape ≠ [] ∧ args.dstShape ≠ perm.map (dim args.srcShape) then .error .shapeInvalid
    else transpose memory args.data args.srcShape args.size perm

end Transposition

end GraphEngine.Formats
