import GraphEngine.Formats.FormatTransfer

/-! The transfers from NCHW, NHWC and HWCN to FRACTAL_Z and back to NCHW and HWCN. The channels are in blocks of C0 and the
kernels in blocks of sixteen; with more than one group several groups share the blocks. -/

namespace GraphEngine.Formats

open Lib.RowMajor Lib.ElementBuffer

def kNiSize : Int := 16

/-- The loop of `Measure`, which starts with `z` equal to `y`. -/
def measureLoop : Nat → Int → Int → Int → Int
  | 0,_,_,z => z
  | fuel + 1,x,y,z => if x.tmod y = 0 then z else measureLoop fuel y (x.tmod y) (x.tmod y)

def measure (x y : Int) : Int := if y = 0 then -1 else measureLoop (y.natAbs + 1) x y y

def lcm (a b : Int) : Int := if b = 0 then -1 else (a * b).tdiv (measure a b)

section Shapes

def transShapeToFz (n c h w c0 : Int) : Except TransError (List Int) :=
  if c0 < 0 then .error .datatypeInvalid
  else
    let c1 := ceil c c0
    let no := ceil n kNiSize
    let dstShape := [h * w * c1,no,kNiSize,c0]
    if isShapeValid dstShape then .ok dstShape else .error .shapeInvalid

def eMultOf (cinOri coutOri cubeK groups : Int) : Int :=
  min (lcm ((lcm cinOri cubeK).tdiv cinOri) ((lcm coutOri kCubeSize).tdiv coutOri)) groups

def transShapeToFzWithGroups (n c h w c0 groups : Int) : Except TransError (List Int) :=
  if c0 < 0 then .error .datatypeInvalid
  else
    let cinOri := c
    let coutOri := n.tdiv groups
    let cubeK := c0
    if coutOri = 0 then .error .failed
    else if cinOri = 0 ∨ cubeK = 0 then .error .undefined -- both are divisors
    else
      let eMult := eMultOf cinOri coutOri cubeK groups
      let cinOpt := ceil (eMult * cinOri) cubeK * cubeK
      let c1Dim := cinOpt.tdiv cubeK
      let gDim := ceil groups eMult
      let n1 := ceil (coutOri * eMult) kCubeSize
      let dstShape := [gDim * c1Dim * h * w,n1,16,cubeK]
      if isShapeValid dstShape then .ok dstShape else .error .shapeInvalid

/-- What the derivations of the shape have in common; `axes` are the positions of N, C, H and W in the source. -/
def transShapeFrom (axes : Nat × Nat × Nat × Nat) (derive : Int → Int → Int → Int → Int → Except TransError (List Int))
    (srcShape : List Int) (c0 : Int) : Except TransError (List Int) :=
  let (axisN,axisC,axisH,axisW) := axes
  if ¬checkShapeValid srcShape 4 then .error .shapeInvalid
  else derive (dim srcShape axisN) (dim srcShape axisC) (dim srcShape axisH) (dim srcShape axisW) c0

def transShapeNchwToFz : List Int → Int → Except TransError (List Int) := transShapeFrom (0,1,2,3) transShapeToFz

def transShapeNhwcToFz : List Int → Int → Except TransError (List Int) := transShapeFrom (0,3,1,2) transShapeToFz

def transShapeHwcnToFz : List Int → Int → Except TransError (List Int) := transShapeFrom (3,2,0,1) transShapeToFz

def transShapeNchwToFzWithGroups (groups : Int) : List Int → Int → Except TransError (List Int) :=
  transShapeFrom (0,1,2,3) fun n c h w c0 => transShapeToFzWithGroups n c h w c0 groups

def transShapeHwcnToFzWithGroups (groups : Int) : List Int → Int → Except TransError (List Int) :=
  transShapeFrom (3,2,0,1) fun n c h w c0 => transShapeToFzWithGroups n c h w c0 groups

/-- `FormatTransferFractalZ::TransShape`; the groups are the sub-format of the destination. -/
def transShapeFractalZ (srcFormat : Format) (groups : Int) (srcShape : List Int) (size c0 : Int) :
    Except TransError (List Int) :=
  if size ≤ 0 then .error .datatypeInvalid
  else
    match srcFormat with
    | .nhwc => transShapeNhwcToFz srcShape c0
    | .hwcn => if 1 < groups then transShapeHwcnToFzWithGroups groups srcShape c0 else transShapeHwcnToFz srcShape c0
    | .nchw => if 1 < groups then transShapeNchwToFzWithGroups groups srcShape c0 else transShapeNchwToFz srcShape c0
    | .chwn => .error .formatInvalid

end Shapes

variable (memory : Nat → UInt8)

section Forward

def copyBytes (data : List UInt8) (totalSize dstOffset srcOffset size : Nat) (dst : List UInt8) :
    Except TransError (List UInt8) :=
  if totalSize < dstOffset then .error .paramInvalid
  else if min (totalSize - dstOffset) securecMemMaxLen < size then .error .paramInvalid
  else if data.length < srcOffset + size then .error .undefined
  else .ok (overwrite dst dstOffset ((data.drop srcOffset).take size))

def transFormatFromNchwToFz (args : TransArgs) : Except TransError (List UInt8) :=
  let n := count args.srcShape 0
  let c := count args.srcShape 1
  let h := count args.srcShape 2
  let w := count args.srcShape 3
  let c0 := args.c0.toNat
  let c1 := (ceil c c0).toNat
  let hw := h * w
  let chw := c * hw
  let nchw := n * chw
  let hwc0 := hw * c0
  let hfCnt := (ceil n kNiSize).toNat
  let vfCnt := c1 * hw
  let fractalEleCnt := c0 * 16
  let totalEleCnt := hfCnt * vfCnt * fractalEleCnt
  let size := args.size.toNat
  let dstSize := totalEleCnt * size
  if dstSize = 0 then .ok []
  else
    forLoop vfCnt (fun vfi =>
      let vfBaseI := vfi * hfCnt
      forLoop hfCnt fun hfi =>
        let gfi := vfBaseI + hfi
        let srcNOffset := hfi * chw * 16
        let srcFOffset := srcNOffset + vfi % hw + vfi / hw * hwc0
        forLoop c0 fun row =>
          let srcCi := vfi / hw * c0 + row
          let srcRowOffset := srcFOffset + row * hw
          forLoop 16 fun col dst =>
            let srcNi := hfi * 16 + col
            let srcOffset := srcRowOffset + chw * col
            let idx := gfi * fractalEleCnt + col * c0 + row
            let offset := idx * size
            if n ≤ srcNi ∨ nchw ≤ srcOffset ∨ c ≤ srcCi then clearElement dstSize offset size dst
            else copyBytes args.data dstSize offset (srcOffset * size) size dst)
      (allocate memory dstSize)

/-- The loops that HWCN and NHWC share; `source` is the place of an element in the source. -/
def fzBlockLoops (args : TransArgs) (n c h w : Nat) (source : Nat → Nat → Nat → Nat → Nat) :
    Except TransError (List UInt8) :=
  let n1n0 := (ceil n kNiSize).toNat * 16
  let c0 := args.c0.toNat
  let c1 := (ceil c c0).toNat
  let n1n0c0 := n1n0 * c0
  let wn1n0c0 := w * n1n0c0
  let hwn1n0c0 := h * wn1n0c0
  let dataSize := args.size.toNat
  let dstSize := (getItemNumByShape args.dstShape).toNat * dataSize
  if dstSize = 0 then .ok []
  else
    forLoop c1 (fun c1i => forLoop h fun hi => forLoop w fun wi => forLoop n1n0 fun n1n0i => forLoop c0 fun c0i dst =>
      let dstIdx := c1i * hwn1n0c0 + hi * wn1n0c0 + wi * n1n0c0 + n1n0i * c0 + c0i
      let dstOffset := dstIdx * dataSize
      if c ≤ c1i * c0 + c0i ∨ n ≤ n1n0i then clearElement dstSize dstOffset dataSize dst
      else copyBytes args.data dstSize dstOffset (source n1n0i (c1i * c0 + c0i) hi wi * dataSize) dataSize dst)
      (allocate memory dstSize)

def transFormatHwcnToFz (args : TransArgs) : Except TransError (List UInt8) :=
  let h := count args.srcShape 0
  let w := count args.srcShape 1
  let c := count args.srcShape 2
  let n := count args.srcShape 3
  let cn := c * n
  let wcn := w * cn
  fzBlockLoops memory args n c h w fun n1n0i ci hi wi => hi * wcn + wi * cn + ci * n + n1n0i

def transFormatNhwcToFz (args : TransArgs) : Except TransError (List UInt8) :=
  let n := count args.srcShape 0
  let h := count args.srcShape 1
  let w := count args.srcShape 2
  let c := count args.srcShape 3
  let wc := w * c
  let hwc := h * w * c
  fzBlockLoops memory args n c h w fun n1n0i ci hi wi => n1n0i * hwc + hi * wc + wi * c + ci

def copyUnchecked (data : List UInt8) (dstOffset srcOffset size : Nat) (dst : List UInt8) : Except TransError (List UInt8) :=
  if dst.length < dstOffset + size ∨ data.length < srcOffset + size then .error .undefined
  else .ok (overwrite dst dstOffset ((data.drop srcOffset).take size))

/-- `memset_s` of a whole buffer to zero. -/
def clearedBuffer (size : Nat) : Except TransError (List UInt8) :=
  if securecMemMaxLen < size then .error .memoryOperateFailed else .ok (List.replicate size 0)

def packGroups (data : List UInt8) (hDim wDim cDim nDim coutOri cubeK eMult dataSize : Nat) (groups : Int) :
    Except TransError (List UInt8) :=
  let cinOri := cDim
  let cinOpt := (ceil (eMult * cinOri : Nat) cubeK).toNat * cubeK
  let coutOpt := (ceil (eMult * coutOri : Nat) kCubeSize).toNat * 16
  let c1Dim := cinOpt / cubeK
  let gDim := (ceil groups eMult).toNat
  let sizeOutputData := gDim * c1Dim * hDim * wDim * coutOpt * cubeK * dataSize
  if sizeOutputData = 0 then .ok []
  else do
    let dst ← clearedBuffer sizeOutputData
    forLoop groups.toNat (fun g => forLoop cDim fun c => forLoop hDim fun h => forLoop wDim fun w =>
      forLoop coutOri fun n dst =>
        let eVal := g % eMult
        let dstCi := eVal * cinOri + c
        let dstCo := eVal * coutOri + n
        let srcCo := g * coutOri + n
        let tempory := dstCi % cubeK
        let dstInx := g / eMult * c1Dim * hDim * wDim * coutOpt * cubeK + dstCi / cubeK * hDim * wDim * coutOpt * cubeK +
          h * wDim * coutOpt * cubeK + w * coutOpt * cubeK + dstCo * cubeK + tempory
        let srxInx := h * wDim * cDim * nDim + w * cDim * nDim + c * nDim + srcCo
        copyUnchecked data (dstInx * dataSize) (srxInx * dataSize) dataSize dst)
      dst

def transFormatHwcnToFzWithGroups (args : TransArgs) (groups : Int) : Except TransError (List UInt8) :=
  let hDim := count args.srcShape 0
  let wDim := count args.srcShape 1
  let cDim := count args.srcShape 2
  let nDim := count args.srcShape 3
  let coutOri := ((nDim : Int).tdiv groups).toNat
  if cDim = 0 ∨ coutOri = 0 then .error .graphFailed
  else
    let cubeK := args.c0.toNat
    packGroups args.data hDim wDim cDim nDim coutOri cubeK (eMultOf cDim coutOri cubeK groups).toNat args.size.toNat groups

def convertFractalZ (srcFormat : Format) (groups : Int) (args : TransArgs) :
    Except TransError (List UInt8) :=
  match srcFormat with
  | .nhwc => transFormatNhwcToFz memory args
  | .hwcn => if 1 < groups then transFormatHwcnToFzWithGroups args groups else transFormatHwcnToFz memory args
  | .nchw => transFormatFromNchwToFz memory args
  | .chwn => .error .formatInvalid

/-- `FormatTransferFractalZ::TransFormat`. -/
def transFormatFractalZ (srcFormat : Format) (groups : Int) (args : TransArgs) :
    Except TransError (List UInt8) := do
  let expectShape ← transShapeFractalZ srcFormat groups args.srcShape args.size args.c0
  if args.dstShape ≠ [] ∧ args.dstShape ≠ expectShape then .error .shapeInvalid
  else convertFractalZ memory srcFormat groups args

end Forward

section Backward

/-- The check of the two transfers back; `axes` are the positions of N, C, H and W in the destination. -/
def checkArgsFromFracZ (axes : Nat × Nat × Nat × Nat) (args : TransArgs) : Except TransError Unit :=
  let (axisN,axisC,axisH,axisW) := axes
  if args.size ≤ 0 then .error .datatypeInvalid
  else if ¬checkShapeValid args.srcShape 4 then .error .shapeInvalid
  else if ¬checkShapeValid args.dstShape 4 then .error .shapeInvalid
  else if args.c0 < 0 then .error .datatypeInvalid
  else
    let c1 := ceil (dim args.dstShape axisC) args.c0
    let n0 := ceil (dim args.dstShape axisN) kNiSize
    if dim args.srcShape 0 ≠ dim args.dstShape axisH * dim args.dstShape axisW * c1 ∨ dim args.srcShape 3 ≠ args.c0 ∨
        dim args.srcShape 2 ≠ kNiSize ∨ dim args.srcShape 1 ≠ n0 then .error .shapeInvalid
    else .ok ()

def checkArgsForFracZToNchw : TransArgs → Except TransError Unit := checkArgsFromFracZ (0,1,2,3)

def checkArgsForFracZToHwcn : TransArgs → Except TransError Unit := checkArgsFromFracZ (3,2,0,1)

def getDstDataAfterTransForFracZToNchw (args : TransArgs) (size totalSize : Nat) :
    Except TransError (List UInt8) :=
  let n0 := count args.srcShape 1
  let ni := count args.srcShape 2
  let c0 := count args.srcShape 3
  let n := count args.dstShape 0
  let c := count args.dstShape 1
  let h := count args.dstShape 2
  let w := count args.dstShape 3
  let nc := ni * n0
  let ncc0 := nc * c0
  let wncc0 := w * ncc0
  let hwncc0 := h * wncc0
  let hw := h * w
  let chw := c * hw
  forLoop n (fun nIdx =>
    let nHeadAddr := nIdx * chw
    forLoop c fun cIdx =>
      let cHeadAddr := nHeadAddr + cIdx * hw
      forLoop h fun hIdx =>
        let hHeadAddr := cHeadAddr + hIdx * w
        forLoop w fun wIdx dst =>
          let dstIdx := hHeadAddr + wIdx
          let srcIdx := cIdx / c0 * hwncc0 + hIdx * wncc0 + wIdx * ncc0 + nIdx * c0 + cIdx % c0
          copyElement args.data totalSize (dstIdx * size) (srcIdx * size) size dst)
    (allocate memory totalSize)

def getDstDataAfterTransForFracZToHwcn (args : TransArgs) (size totalSize : Nat) :
    Except TransError (List UInt8) :=
  let n0 := count args.srcShape 1
  let ni := count args.srcShape 2
  let c0 := count args.srcShape 3
  let h := count args.dstShape 0
  let w := count args.dstShape 1
  let c := count args.dstShape 2
  let n := count args.dstShape 3
  let nc := ni * n0
  let ncc0 := nc * c0
  let wncc0 := w * ncc0
  let hwncc0 := h * wncc0
  let cn := c * n
  let wcn := w * cn
  forLoop h (fun hIdx =>
    let hHeadAddr := hIdx * wcn
    forLoop w fun wIdx =>
      let wHeadAddr := hHeadAddr + wIdx * cn
      forLoop c fun cIdx =>
        let cHeadAddr := wHeadAddr + cIdx * n
        forLoop n fun nIdx dst =>
          let dstIdx := cHeadAddr + nIdx
          let srcIdx := cIdx / c0 * hwncc0 + hIdx * wncc0 + wIdx * ncc0 + nIdx * c0 + cIdx % c0
          copyElement args.data totalSize (dstIdx * size) (srcIdx * size) size dst)
    (allocate memory totalSize)

def convertFracZNchw : TransArgs → Except TransError (List UInt8) :=
  convertWith (getDstDataAfterTransForFracZToNchw memory) .shapeInvalid

def convertFracZHwcn : TransArgs → Except TransError (List UInt8) :=
  convertWith (getDstDataAfterTransForFracZToHwcn memory) .shapeInvalid

/-- `FormatTransferFracZNchw::TransFormat`. -/
def transFormatFracZNchw (args : TransArgs) : Except TransError (List UInt8) := do
  checkArgsForFracZToNchw args
  convertFracZNchw memory args

/-- `FormatTransferFracZHwcn::TransFormat`. -/
def transFormatFracZHwcn (args : TransArgs) : Except TransError (List UInt8) := do
  checkArgsForFracZToHwcn args
  convertFracZHwcn memory args

end Backward

end GraphEngine.Formats
