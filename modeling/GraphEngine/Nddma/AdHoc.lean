import GraphEngine.Nddma.Parameters

/-! The two ad hoc predictors: the unified tool for one to five dimensions and the tool for two-dimensional
transposes. Both read the base from a round 1 file, in which a data type may have no `base` section. -/
namespace GraphEngine.Nddma

/-- A data type of the base file: its coefficients, or a `base` section. -/
inductive BaseEntry where
  | bare (coeffs : BaseCoeffs)
  | nested (base : BaseSection)
  deriving DecidableEq, Repr

abbrev BaseFile := Dtype → Option BaseEntry

/-- The coefficients found by `T_` and `H_` keys under `parameters.get("base", parameters)`. -/
def BaseEntry.coeffs (blockDim : Int) : BaseEntry → Except PyError BaseCoeffs
  | .bare coeffs => .ok coeffs
  | .nested (.flat coeffs) => .ok coeffs
  | .nested (.perCore _ _) => .error (.keyError (if blockDim ≤ 2 then "T_1" else "T_2"))

def BaseFile.get (file : BaseFile) : DtypeName → Except PyError BaseEntry
  | .known dtype => subscript dtype.name (file dtype)
  | .unknown text => .error (.keyError text)

namespace AdHoc

def oneDimensionalBaseAndT1 (oneDimensional : BaseFile) (corrections : ParameterSet) (dtype : DtypeName)
    (byteValue : ℚ) (inputStride outputStride : Int) (blockDim : Int) : Except PyError (ℚ × ℚ) := do
  let parameters ← oneDimensional.get dtype
  let dtypeSize : Int ← dtype.size
  let stride := min ((inputStride : ℚ) * dtypeSize) 128
  let outputGapIndicator := min 1 (max 0 ((outputStride : ℚ) - 1))
  let correctionParams ← corrections.get dtype
  let baseParams ← parameters.coeffs blockDim
  let (t,h) := baseParams.pick blockDim
  let base := (← div byteValue t) + h
  let nGParams ← subscript "N_G" correctionParams.nG
  let nGUParams ← subscript "N_GU" correctionParams.nGU
  let nG := (nGParams.a1 + nGParams.a2 * byteValue) * stride
  let nGU := ((nGUParams.b1 + nGUParams.b2 * stride) + (nGUParams.b3 + nGUParams.b4 * stride) * byteValue)
    * outputGapIndicator
  let correction := nG + nGU
  if blockDim > 2 then
    let rhoParams ← subscript "rho" correctionParams.rho
    let rho := rhoParams.c1 + rhoParams.c2 * stride
      + outputGapIndicator * (rhoParams.c3 + rhoParams.c4 * stride)
    return (base,correction * rho)
  return (base,correction)

structure Term where
  axis : Nat
  loopSize : Int
  termElems : Int
  dataVolumeBytes : Int
  inputStride : Int
  outputStride : Int
  expectedContiguousInputStride : Int
  expectedContiguousOutputStride : Int
  inputStrideDelta : Int
  outputStrideDelta : Int
  sBytes : Int
  outputGapIndicator : Int
  n1CyclesPerKernelRepeat : ℚ
  n1Cycles : ℚ
  deriving DecidableEq, Repr

structure Prediction where
  dtypeSize : Int
  dim : Nat
  totalElems : Int
  dataVolumeBytes : Int
  nBaseCyclesPerKernelRepeat : ℚ
  nBaseCycles : ℚ
  n1TotalCyclesPerKernelRepeat : ℚ
  n1TotalCycles : ℚ
  predictedCyclesPerKernelRepeat : ℚ
  predictedCycles : ℚ
  terms : List Term
  deriving DecidableEq, Repr

/-- The checks at the head of `predict`, in their order. -/
def checkConfig (outputDims inputStride outputStride : List Int) (blockDim : Int) (dtype : DtypeName)
    (kernelRepeat : Int) : Except PyError Int := do
  let dim := outputDims.length
  if dim < 1 ∨ dim > 5 then throw (.valueError "unified model supports dim in [1, 5]")
  if inputStride.length ≠ dim ∨ outputStride.length ≠ dim then
    throw (.valueError "output_dims, input_stride, and output_stride must have the same length")
  if outputDims.any (· ≤ 0) then throw (.valueError "output_dims values must be positive")
  if inputStride.any (· < 0) then throw (.valueError "input_stride values must be non-negative")
  if outputStride.any (· < 0) then throw (.valueError "output_stride values must be non-negative")
  let dtypeSize ← match dtype with
    | .known known => pure known.size
    | .unknown text => throw (.valueError s!"unsupported dtype: {text}")
  if blockDim ≤ 0 then throw (.valueError "block_dim must be positive")
  if kernelRepeat ≤ 0 then throw (.valueError "kernel_repeat must be positive")
  return dtypeSize

section Terms
variable (oneDimensional : BaseFile) (corrections : ParameterSet) (dtype : DtypeName) (blockDim kernelRepeat : Int)
  (loopSizes inputStrideByLoopAxis outputStrideByLoopAxis : List Int) (totalElems dtypeSize : Int)

def termLoop : List Int → Nat → Int → Except PyError (List Term)
  | [],_,_ => pure []
  | loopSize :: outer,axis,innerProduct => do
    let termElems ← floorDiv totalElems innerProduct
    let termBytes := termElems * dtypeSize
    let inputHere := inputStrideByLoopAxis.getD axis 0
    let outputHere := outputStrideByLoopAxis.getD axis 0
    let expected (stride : List Int) : Int :=
      if axis = 0 then 0
      else ((List.range axis).map fun lower => loopSizes.getD lower 0 * stride.getD lower 0).sum
    let expectedInputStride := expected inputStrideByLoopAxis
    let expectedOutputStride := expected outputStrideByLoopAxis
    -- the innermost axis takes its stride as it is
    let inputDelta := if axis = 0 then inputHere else |inputHere - expectedInputStride| + 1
    let outputDelta := if axis = 0 then outputHere else |outputHere - expectedOutputStride| + 1
    let (_,t1) ← oneDimensionalBaseAndT1 oneDimensional corrections dtype termBytes inputDelta outputDelta blockDim
    let terms ← termLoop outer (axis + 1) (innerProduct * loopSize)
    return ⟨axis,loopSize,termElems,termBytes,inputHere,outputHere,expectedInputStride,expectedOutputStride,
      inputDelta,outputDelta,min (inputDelta * dtypeSize) 128,min 1 (outputDelta - 1),t1,t1 * kernelRepeat⟩ :: terms

end Terms

def predict (oneDimensional : BaseFile) (corrections : ParameterSet) (outputDims inputStride outputStride : List Int)
    (blockDim : Int) (dtype : DtypeName) (kernelRepeat : Int) : Except PyError Prediction := do
  let dtypeSize ← checkConfig outputDims inputStride outputStride blockDim dtype kernelRepeat
  let loopSizes := outputDims.reverse
  let inputStrideByLoopAxis := inputStride.reverse
  let outputStrideByLoopAxis := outputStride.reverse
  let totalElems := productInt loopSizes
  let dataVolumeBytes := totalElems * dtypeSize
  let (nBase,_) ← oneDimensionalBaseAndT1 oneDimensional corrections dtype dataVolumeBytes
    (inputStrideByLoopAxis.getD 0 0) (outputStrideByLoopAxis.getD 0 0) blockDim
  let terms ← termLoop oneDimensional corrections dtype blockDim kernelRepeat loopSizes inputStrideByLoopAxis
    outputStrideByLoopAxis totalElems dtypeSize loopSizes 0 1
  let t1Total := (terms.map (·.n1Cycles)).sum
  let t1PerKernelRepeat := (terms.map (·.n1CyclesPerKernelRepeat)).sum
  let predictedPerKernelRepeat := nBase + t1PerKernelRepeat
  return {
    dtypeSize := dtypeSize
    dim := outputDims.length
    totalElems := totalElems
    dataVolumeBytes := dataVolumeBytes
    nBaseCyclesPerKernelRepeat := nBase
    nBaseCycles := nBase * kernelRepeat
    n1TotalCyclesPerKernelRepeat := t1PerKernelRepeat
    n1TotalCycles := t1Total
    predictedCyclesPerKernelRepeat := predictedPerKernelRepeat
    predictedCycles := predictedPerKernelRepeat * kernelRepeat
    terms := terms }

end AdHoc

namespace Transpose

def oneDBase (oneDimensional : BaseFile) (dtype : DtypeName) (bytesValue : ℚ) (blockDim : Int) : Except PyError ℚ := do
  let params ← oneDimensional.get dtype
  let params ← params.coeffs blockDim
  let (t,h) := params.pick blockDim
  return (← div bytesValue t) + h

def oneDG1 (corrections : ParameterSet) (dtype : DtypeName) (bytesValue : ℚ) (inputStride : Int)
    (blockDim : Int) : Except PyError ℚ := do
  let params ← corrections.get dtype
  let s := min ((inputStride : ℚ) * (← dtype.size : Int)) 128
  let nG ← subscript "N_G" params.nG
  let ng := (nG.a1 + nG.a2 * bytesValue) * s
  if blockDim ≤ 2 then return ng
  let rho ← subscript "rho" params.rho
  let multiplier := rho.c1 + rho.c2 * s
  return multiplier * ng

structure NG2 where
  g10 : ℚ
  g11M : ℚ
  g00 : ℚ
  g01M : ℚ
  deriving DecidableEq, Repr

def NG2.predict (params : NG2) (m is2 : Int) : ℚ := (params.g10 + params.g11M * m) * is2 + params.g00 + params.g01M * m

structure Prediction where
  m : Int
  n : Int
  is2 : Int
  is1 : Int
  dataVolumeBytes : Int
  b1Bytes : Int
  sBytes : Int
  nBaseCyclesPerKernelRepeat : ℚ
  nG1CyclesPerKernelRepeat : ℚ
  nG2 : ℚ
  predictedCyclesPerKernelRepeat : ℚ
  predictedCycles : ℚ
  deriving DecidableEq, Repr

def predict (oneDimensional : BaseFile) (corrections : ParameterSet) (ng2 : Dtype → Option NG2)
    (outputDims inputStride outputStride : List Int) (blockDim : Int) (dtype : DtypeName) (kernelRepeat : Int) :
    Except PyError Prediction := do
  if outputDims.length ≠ 2 then throw (.valueError "round5 ng2 ad hoc model supports dim=2 only")
  if inputStride.length ≠ 2 ∨ outputStride.length ≠ 2 then
    throw (.valueError "output_dims, input_stride, and output_stride must have length 2")
  if outputDims.any (· ≤ 0) then throw (.valueError "output_dims values must be positive")
  if inputStride.any (· < 0) then throw (.valueError "input_stride values must be non-negative")
  if outputStride.any (· < 0) then throw (.valueError "output_stride values must be non-negative")
  if blockDim ≤ 0 then throw (.valueError "block_dim must be positive")
  if kernelRepeat ≤ 0 then throw (.valueError "kernel_repeat must be positive")
  let known ← match dtype with
    | .known known => pure known
    | .unknown text => throw (.valueError s!"unsupported dtype: {text}")
  let (m,n) := (outputDims.getD 0 0,outputDims.getD 1 0)
  let (is2,is1) := (inputStride.getD 0 0,inputStride.getD 1 0)
  let (os2,os1) := (outputStride.getD 0 0,outputStride.getD 1 0)
  if is2 ≥ is1 then throw (.valueError "expected input_stride=[is2,is1] with is2 < is1")
  if os2 ≠ n ∨ os1 ≠ 1 then throw (.valueError "expected output_stride=[N,1] for the Round5 N_G2 model")
  let dtypeSize := known.size
  let modelValues ← subscript known.name (ng2 known)
  let dataVolumeBytes := m * n * dtypeSize
  let b1 := n * dtypeSize
  let nBase ← oneDBase oneDimensional dtype dataVolumeBytes blockDim
  let nG1 ← oneDG1 corrections dtype b1 is1 blockDim
  let nG2 := modelValues.predict m is2
  let predictedPerRepeat := nBase + nG1 * nG2
  return {
    m := m
    n := n
    is2 := is2
    is1 := is1
    dataVolumeBytes := dataVolumeBytes
    b1Bytes := b1
    sBytes := min (is1 * dtypeSize) 128
    nBaseCyclesPerKernelRepeat := nBase
    nG1CyclesPerKernelRepeat := nG1
    nG2 := nG2
    predictedCyclesPerKernelRepeat := predictedPerRepeat
    predictedCycles := predictedPerRepeat * kernelRepeat }

end Transpose
end GraphEngine.Nddma
