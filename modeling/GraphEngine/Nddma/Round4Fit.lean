import GraphEngine.Nddma.Round3Fit

/-! The round 4 fitting script up to the points it fits: the inherited base and the innermost term of a
two-dimensional row. -/
namespace GraphEngine.Nddma.Round4

def oneDBase (round2 : ParameterSet) (dtype : DtypeName) (bytesValue : ℚ) (blockDim : Int) : Except PyError ℚ :=
  Round3.oneDBase round2 dtype bytesValue blockDim

def lowByteStrideMax : ℚ := 128

def oneDGmCorrection (round2 : ParameterSet) (dtype : DtypeName) (bytesValue : ℚ) (inputStride : Int)
    (blockDim : Int) : Except PyError ℚ := do
  let params ← round2.get dtype
  let s := min ((inputStride : ℚ) * (← dtype.size : Int)) lowByteStrideMax
  match params.nG with
  | some nG =>
    let ng := (nG.a1 + nG.a2 * bytesValue) * s
    if blockDim ≤ 2 then return ng
    let rho ← subscript "rho" params.rho
    let multiplier := rho.c1 + rho.c2 * s
    return multiplier * ng
  | none =>
    let (plain,(c1,c2)) ← subscript "a_1" params.plain
    let ng := (plain.a1 + plain.a2 * bytesValue) * s
    if blockDim ≤ 2 then return ng
    let multiplier := c1 + c2 * s
    return multiplier * ng

structure Point where
  m : Int
  n : Int
  is2 : Int
  is1 : Int
  nBaseCycles : ℚ
  nG1Cycles : ℚ
  actualCycles : ℚ
  observedNG2 : ℚ
  deriving DecidableEq, Repr

def unpackPair : List Int → Except PyError (Int × Int)
  | [first,second] => .ok (first,second)
  | _ => .error (.valueError "expected 2 values to unpack")

def preparePoint (round2 : ParameterSet) (row : Row) : Except PyError Point := do
  let (m,n) ← unpackPair row.outputDims
  let (is2,is1) ← unpackPair row.inputStride
  let blockDim ← subscript "block_dim" row.blockDim
  let dtypeSize : Int ← row.dtype.size
  let totalBytes : ℚ := (m * n * dtypeSize : Int)
  let innerBytes : ℚ := (n * dtypeSize : Int)
  let nBase ← oneDBase round2 row.dtype totalBytes blockDim
  let nG1 ← oneDGmCorrection round2 row.dtype innerBytes is1 blockDim
  let actual ← Round3.actualValue row
  if |nG1| ≤ 1 / 1000000000000 then throw (.valueError "inherited N_G1 is zero")
  return ⟨m,n,is2,is1,nBase,nG1,actual,(actual - nBase) / nG1⟩

def inheritedOneDimensionalParameters (round2 : ParameterSet) : Except PyError ParameterSet := do
  let copy (dtype : Dtype) : Except PyError DtypeParams := do
    let values ← round2.get (.known dtype)
    let base ← subscript "base" values.base
    let nG ← subscript "N_G" values.nG
    return { base := some base, nG := some nG, rho := values.rho }
  let int8 ← copy .int8
  let int16 ← copy .int16
  let int32 ← copy .int32
  let int64 ← copy .int64
  return fun
    | .int8 => some int8
    | .int16 => some int16
    | .int32 => some int32
    | .int64 => some int64

end GraphEngine.Nddma.Round4
