import GraphEngine.Lib.LeastSquares
import GraphEngine.Nddma.Round3Fit

/-! The round 5 fitting script for three dimensions: samples are merged by configuration, the corrections are
fitted on few cores, then the multiplier for many cores with the corrections fixed. -/
namespace GraphEngine.Nddma

def DtypeParams.setCorrections (params : DtypeParams) (coeff : Fin 6 → ℚ) : DtypeParams :=
  { params with nG := some ⟨coeff 0,coeff 1⟩, nGU := some ⟨coeff 2,coeff 3,coeff 4,coeff 5⟩ }

def DtypeParams.setRho (params : DtypeParams) (coeff : Fin 4 → ℚ) : DtypeParams :=
  { params with rho := some ⟨coeff 0,coeff 1,coeff 2,coeff 3⟩ }

namespace Round5

open Lib

structure Config where
  dtype : Dtype
  core : Int
  outputDims : List Int
  inputStride : List Int
  outputStride : List Int
  deriving DecidableEq, Repr

def configOf (row : Row) : Except PyError Config := do
  let dtype ← match row.dtype with
    | .known dtype => pure dtype
    | .unknown text => throw (.valueError s!"unsupported dtype: {text}")
  let core := row.blockDim.getD 1
  let outputDims ← parseTuple row.outputDims 3
  let inputStride ← parseTuple row.inputStride 3
  let outputStride ← parseTuple row.outputStride 3
  if core < 1 ∨ outputDims.any (· ≤ 0) then throw (.valueError "3D dimensions and block_dim must be positive")
  if (inputStride ++ outputStride).any (· < 0) then throw (.valueError "3D strides must be nonnegative")
  return ⟨dtype,core,outputDims,inputStride,outputStride⟩

structure Group where
  config : Config
  first : Row
  others : List Row

/-- Appending to a `defaultdict(list)`, whose keys stay in the order in which they came. -/
def addToGroup (config : Config) (row : Row) : List Group → List Group
  | [] => [⟨config,row,[]⟩]
  | group :: groups =>
    if group.config = config then { group with others := group.others ++ [row] } :: groups
    else group :: addToGroup config row groups

def groupRows : List Row → List Group → Except PyError (List Group)
  | [],grouped => pure grouped
  | row :: rows,grouped =>
    if row.dim ≠ some 3 then groupRows rows grouped
    else do
      let config ← configOf row
      groupRows rows (addToGroup config row grouped)

/-- `statistics.median`. -/
def median (values : List ℚ) : ℚ :=
  let sorted := values.insertionSort (· ≤ ·)
  let middle := values.length / 2
  if values.length % 2 = 1 then sorted.getD middle 0
  else (sorted.getD (middle - 1) 0 + sorted.getD middle 0) / 2

def mergeGroup (group : Group) : Except PyError Row := do
  let measured ← (group.first :: group.others).mapM Round3.actualValue
  return { group.first with
    dtype := .known group.config.dtype
    blockDim := some group.config.core
    dim := some 3
    actualY := some (median measured) }

def aggregate (rows : List Row) : Except PyError (List Row) := do
  let grouped ← groupRows rows []
  grouped.mapM mergeGroup

def columnScale {n : Nat} (design : List (Fin n → ℚ)) : Fin n → ℚ := fun j =>
  let scale := design.foldl (fun largest row => max largest |row j|) 0
  if 0 < scale then scale else 1

def solve (solver : Solver ℚ) {n : Nat} (design : List (Fin n → ℚ)) (target : List ℚ) (label : String) :
    Except PyError (Fin n → ℚ) :=
  if design.length < n then .error (.valueError s!"{label}: not enough samples")
  else
    let scale := columnScale design
    let (coeff,rank) := solver.lstsq (design.map (· / scale)) target
    if rank ≠ n then .error (.valueError s!"{label}: rank-deficient design ({rank}/{n})")
    else .ok (coeff / scale)

def strideBytes (dtype : Dtype) (term : Round3.Term) : ℚ := min ((term.inputStrideDelta : ℚ) * dtype.size) 128

def outputGate (term : Round3.Term) : ℚ := min 1 (max 0 ((term.outputStrideDelta : ℚ) - 1))

/-- In the order of the coefficients `a1, a2, b1, b2, b3, b4`. -/
def correctionFeatures (dtype : Dtype) (terms : List Round3.Term) : Fin 6 → ℚ :=
  terms.foldl (fun features term =>
    let b : ℚ := term.dataVolumeBytes
    let s := strideBytes dtype term
    let g := outputGate term
    features + ![s,s * b,g,g * s,g * b,g * s * b]) 0

/-- The corrections are in `t1_cycles` by now. -/
def rhoFeatures (dtype : Dtype) (terms : List Round3.Term) : Fin 4 → ℚ :=
  terms.foldl (fun features term =>
    let s := strideBytes dtype term
    let g := outputGate term
    features + term.t1Cycles • ![1,s,g,g * s]) 0

def stageSample {n : Nat} (parameters : ParameterSet) (features : List Round3.Term → Fin n → ℚ) (row : Row) :
    Except PyError ((Fin n → ℚ) × ℚ) := do
  let (base,terms) ← Round3.inheritedTerms parameters row false
  return (features terms,(← Round3.actualValue row) - base)

def stageSamples {n : Nat} (parameters : ParameterSet) (features : List Round3.Term → Fin n → ℚ)
    (rows : List Row) : Except PyError (List ((Fin n → ℚ) × ℚ)) := rows.mapM (stageSample parameters features)

def fitStage {n : Nat} (solver : Solver ℚ) (parameters : ParameterSet) (features : List Round3.Term → Fin n → ℚ)
    (rows : List Row) (label : String) : Except PyError (Fin n → ℚ) := do
  let samples ← stageSamples parameters features rows
  solve solver (samples.map (·.1)) (samples.map (·.2)) label

/-- The rows of a data type on at most two cores; `aggregate` has set the core count. -/
def lowerRows (rows : List Row) (dtype : Dtype) : List Row :=
  (rows.filter (·.dtype = .known dtype)).filter (·.blockDim.getD 1 ≤ 2)

def upperRows (rows : List Row) (dtype : Dtype) : List Row :=
  (rows.filter (·.dtype = .known dtype)).filter (·.blockDim.getD 1 > 2)

structure Diagnostics where
  dtype : Dtype
  correctionSamples : Nat
  rhoSamples : Nat
  deriving DecidableEq, Repr

def fitDtype (solver : Solver ℚ) (rows : List Row) (round2 : ParameterSet)
    (state : ParameterSet × List Diagnostics) (dtype : Dtype) : Except PyError (ParameterSet × List Diagnostics) := do
  let (specialized,diagnostics) := state
  let lower := lowerRows rows dtype
  let upper := upperRows rows dtype
  if lower.isEmpty ∨ upper.isEmpty then
    throw (.valueError s!"{dtype.name}: need both block_dim<=2 and block_dim>2 3D data to refit all correction parameters")
  let coeff ← fitStage solver round2 (correctionFeatures dtype) lower s!"{dtype.name} N_G/N_GU"
  let params ← specialized.get (.known dtype)
  let params := params.setCorrections coeff
  let specialized := Function.update specialized dtype (some params)
  let coeff ← fitStage solver specialized (rhoFeatures dtype) upper s!"{dtype.name} rho"
  let params := params.setRho coeff
  return (Function.update specialized dtype (some params),
    diagnostics ++ [⟨dtype,lower.length,upper.length⟩])

structure Model where
  parameters : ParameterSet
  diagnostics : List Diagnostics
  predictions : List Round3.Point

def fitModel (solver : Solver ℚ) (rows : List Row) (round2 : ParameterSet) : Except PyError Model := do
  let rows ← aggregate rows
  if rows.isEmpty then throw (.valueError "no 3D measurements found")
  let (specialized,diagnostics) ← Dtype.all.foldlM (fitDtype solver rows round2) (round2,[])
  let points ← Round3.fitModel rows specialized
  let inherited ← Round3.fitModel rows round2
  -- the baseline of the result is the inherited model
  let predictions := List.zipWith (fun point old => { point with
    baselinePredictedCycles := old.predictedCycles
    baselineErrorCycles := old.errorCycles
    baselineT1Cycles := old.t1Cycles }) points inherited
  return ⟨specialized,diagnostics,predictions⟩

end Round5
end GraphEngine.Nddma
