import GraphEngine.Nddma.Parameters

/-! The round 3 fitting script: the base and the first-order term of each axis for one measured row. -/
namespace GraphEngine.Nddma.Round3

/-- The first positive metric; all but `actual_y` are divided by the repeat count. -/
def actualValue (row : Row) : Except PyError ℚ :=
  let repeats := max 1 (row.repeat_.getD 1)
  match ((row.actualY :: row.metrics.map fun metric => metric.map (· / repeats)).filterMap id).find? (0 < ·) with
  | some value => .ok value
  | none => .error (.valueError "no positive measurement found")

def baseParams (round2 : ParameterSet) (dtype : DtypeName) (blockDim : Int) : Except PyError CoreBase := do
  let model ← round2.get dtype
  match ← subscript "base" model.base with
  | .flat coeffs => pure (.sized coeffs)
  | .perCore le2 gt2 => pure (if blockDim ≤ 2 then le2 else gt2)

def oneDBase (round2 : ParameterSet) (dtype : DtypeName) (bytesPerCore : ℚ) (blockDim : Int) :
    Except PyError ℚ := do
  match ← baseParams round2 dtype blockDim with
  | .sized params =>
    let (t,h) := params.pick blockDim
    return (← div bytesPerCore t) + h
  | .rated alpha tBytesPerCycle => return alpha + (← div bytesPerCore tBytesPerCycle)

def oneDCorrection (round2 : ParameterSet) (dtype : DtypeName) (bytesValue : ℚ) (inputStride outputStride : Int)
    (blockDim : Int) (useCoreRho : Bool) : Except PyError ℚ := do
  let model ← round2.get dtype
  let s := min ((inputStride : ℚ) * (← dtype.size : Int)) 128
  let gate := min 1 (max 0 ((outputStride - 1 : Int) : ℚ))
  let nG ← subscript "N_G" model.nG
  let ng := (nG.a1 + nG.a2 * bytesValue) * s
  let nGU ← subscript "N_GU" model.nGU
  let ngu := ((nGU.b1 + nGU.b2 * s) + (nGU.b3 + nGU.b4 * s) * bytesValue) * gate
  if !useCoreRho || blockDim ≤ 2 then return ng + ngu
  let rho ← subscript "rho" model.rho
  let multiplier := rho.c1 + rho.c2 * s + gate * (rho.c3 + rho.c4 * s)
  return multiplier * (ng + ngu)

structure Term where
  axis : Nat
  loopSize : Int
  dataVolumeBytes : Int
  inputStrideDelta : Int
  outputStrideDelta : Int
  t1Cycles : ℚ
  deriving DecidableEq, Repr

def expectedStride (loopSizes stride : List Int) (axis : Nat) : Int :=
  ((List.range axis).map fun lower => loopSizes.getD lower 0 * stride.getD lower 0).sum

def strideDelta (loopSizes stride : List Int) (axis : Nat) : Int :=
  if axis = 0 then stride.getD 0 0
  else |stride.getD axis 0 - expectedStride loopSizes stride axis| + 1

section Terms
variable (round2 : ParameterSet) (dtype : DtypeName) (blockDim : Int) (useCoreRho : Bool)
  (loopSizes inputStride outputStride : List Int) (totalElems dtypeSize : Int)

/-- The loop over the axes from the innermost one; `innerProduct` is the volume of those passed. -/
def termLoop : List Int → Nat → Int → Except PyError (List Term)
  | [],_,_ => pure []
  | loopSize :: outer,axis,innerProduct => do
    let termElems ← floorDiv totalElems innerProduct
    let inputDelta := strideDelta loopSizes inputStride axis
    let outputDelta := strideDelta loopSizes outputStride axis
    let termBytes := termElems * dtypeSize
    let correction ← oneDCorrection round2 dtype termBytes inputDelta outputDelta blockDim useCoreRho
    let terms ← termLoop outer (axis + 1) (innerProduct * loopSize)
    return ⟨axis,loopSize,termBytes,inputDelta,outputDelta,correction⟩ :: terms

end Terms

def inheritedTerms (round2 : ParameterSet) (row : Row) (useCoreRho : Bool) : Except PyError (ℚ × List Term) := do
  let dim ← subscript "dim" row.dim
  let blockDim := row.blockDim.getD 1
  let dims ← parseTuple row.outputDims dim
  let inputStrideApi ← parseTuple row.inputStride dim
  let outputStrideApi ← parseTuple row.outputStride dim
  let loopSizes := dims.reverse
  let totalElems := productInt loopSizes
  let dtypeSize ← row.dtype.size
  let nBase ← oneDBase round2 row.dtype ((totalElems * dtypeSize : Int) : ℚ) blockDim
  let terms ← termLoop round2 row.dtype blockDim useCoreRho loopSizes inputStrideApi.reverse
    outputStrideApi.reverse totalElems dtypeSize loopSizes 0 1
  return (nBase,terms)

structure Point where
  actualCycles : ℚ
  nBaseCycles : ℚ
  t1Cycles : ℚ
  baselineT1Cycles : ℚ
  predictedCycles : ℚ
  errorCycles : ℚ
  baselinePredictedCycles : ℚ
  baselineErrorCycles : ℚ
  deriving DecidableEq, Repr

def t1Sum (terms : List Term) : ℚ := (terms.map (·.t1Cycles)).sum

/-- One point of `fit_model`; the baseline leaves the multiplier for many cores out. -/
def fitPoint (round2 : ParameterSet) (row : Row) : Except PyError Point := do
  let (nBase,terms) ← inheritedTerms round2 row true
  let (_,baselineTerms) ← inheritedTerms round2 row false
  let actual ← actualValue row
  let predicted := nBase + t1Sum terms
  let baselinePredicted := nBase + t1Sum baselineTerms
  return ⟨actual,nBase,t1Sum terms,t1Sum baselineTerms,predicted,predicted - actual,baselinePredicted,
    baselinePredicted - actual⟩

/-- The predictions of `fit_model`, which fits nothing: its parameters are those it is given. -/
def fitModel (rows : List Row) (round2 : ParameterSet) : Except PyError (List Point) := rows.mapM (fitPoint round2)

end GraphEngine.Nddma.Round3
