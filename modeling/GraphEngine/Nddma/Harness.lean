import GraphEngine.Lib.StridedBox
import GraphEngine.Nddma.Parameters

/-! The standalone harness: a plan row becomes an experiment on the host, whose tiling the kernel reads on every
core. Host sizes are 64-bit, the fields of the tiling and the offsets of the kernel 32-bit. An abort of the host is
`none`. -/
namespace GraphEngine.Nddma.Harness

open Lib.StridedBox

def twoPow32 : Nat := 4294967296

def twoPow64 : Nat := 18446744073709551616

def kMaxDim : Nat := 5

def digitValue (c : Char) : Option Nat := if '0' ≤ c ∧ c ≤ '9' then some (c.toNat - '0'.toNat) else none

def parseDigits : List Char → Nat → Option Nat
  | [],value => some value
  | c :: rest,value => do
    let digit ← digitValue c
    parseDigits rest (value * 10 + digit)

def isSpace (c : Char) : Bool := c = ' ' ∨ ('\t' ≤ c ∧ c ≤ '\r')

/-- `ParseU64` by `strtoull`: blanks and a sign may lead, a number that is too large becomes the largest one, an
empty text is zero. -/
def parseU64 (text : String) : Option Nat :=
  let number (negative : Bool) : List Char → Option Nat
    | [] => none
    | digits => do
      let value ← parseDigits digits 0
      if twoPow64 ≤ value then return twoPow64 - 1
      return if negative ∧ value ≠ 0 then twoPow64 - value else value
  match text.toList with
  | [] => some 0
  | chars =>
    match chars.dropWhile isSpace with
    | '-' :: digits => number true digits
    | '+' :: digits => number false digits
    | digits => number false digits

def toUInt32 (value : Nat) : Nat := value % twoPow32

def toInt64 (value : Nat) : Int := if 2 * value < twoPow64 then value else (value : Int) - twoPow64

/-- `ParseDimList`: empty parts are skipped. -/
def parseDimList (text : String) : Option (List Int) :=
  ((text.toList.splitOn 'x').filter (· ≠ [])).mapM fun part => (parseU64 (String.ofList part)).map toInt64

/-- The texts of one plan row; columns that a plan may lack are `none`. -/
structure PlanRow where
  executionRepeatCount : Option String := none
  blockDim : Option String := none
  dtype : Dtype
  dim : String
  repeat_ : String
  outputDims : String
  outputStride : String
  inputStride : String
  srcOffsetElem : String
  dstOffsetElem : String
  enableStore : String
  totalElems : String
  logicalTotalBytes : Option String := none
  gmSpanElems : String
  ubSpanElems : String

/-- The tiling; its arrays hold the first `kMaxDim` entries. -/
structure TilingData where
  dtype : Dtype
  dim : Nat
  repeat_ : Nat
  enableStore : Nat
  blockDim : Nat
  totalElems : Nat
  logicalTotalElems : Nat
  ubBufferBytes : Nat
  srcOffsetElem : Nat
  dstOffsetElem : Nat
  srcCoreStrideElems : Nat
  dstCoreStrideElems : Nat
  outputDims : List Int
  outputStride : List Int
  inputStride : List Int
  deriving DecidableEq, Repr

structure Experiment where
  executionRepeatCount : Nat
  blockDim : Nat
  tiling : TilingData
  totalElems : Nat
  logicalTotalElems : Nat
  gmSpanElems : Nat
  ubSpanElems : Nat
  deriving DecidableEq, Repr

def optionalField (text : Option String) (default_ : Nat) : Option Nat :=
  match text with
  | none => some default_
  | some text => if text = "" then some default_ else parseU64 text

def dtypeSize (dtype : Dtype) : Nat := dtype.size.toNat

def checkTotals (row : PlanRow) (blockDim dim : Nat) : Option (Nat × Nat) := do
  let totalElems ← parseU64 row.totalElems
  guard (totalElems < twoPow32)
  let logicalTotalBytes ← optionalField row.logicalTotalBytes
    (totalElems * dtypeSize row.dtype * blockDim % twoPow64)
  guard (logicalTotalBytes ≠ 0 ∧ logicalTotalBytes % dtypeSize row.dtype = 0)
  let logicalTotalElems := logicalTotalBytes / dtypeSize row.dtype
  guard (logicalTotalElems < twoPow32)
  -- a split of a fixed total over several cores needs one dimension
  guard (¬(logicalTotalElems ≠ totalElems * blockDim ∧ blockDim > 1 ∧ dim ≠ 1))
  return (totalElems,logicalTotalElems)

def checkLists (row : PlanRow) (dim : Nat) : Option (List Int × List Int × List Int) := do
  let dims ← parseDimList row.outputDims
  let outputStride ← parseDimList row.outputStride
  let inputStride ← parseDimList row.inputStride
  guard (dims.length = dim ∧ outputStride.length = dim ∧ inputStride.length = dim)
  return (dims,outputStride,inputStride)

def fillArray (values : List Int) : List Int := (values ++ List.replicate kMaxDim 1).take kMaxDim

def buildExperiment (row : PlanRow) : Option Experiment := do
  let executionRepeatCount ← optionalField row.executionRepeatCount 1
  let blockDim ← (optionalField row.blockDim 1).map toUInt32
  guard (blockDim ≠ 0)
  let dim ← (parseU64 row.dim).map toUInt32
  let repeat_ ← (parseU64 row.repeat_).map toUInt32
  let enableStore ← (parseU64 row.enableStore).map toUInt32
  let srcOffsetElem ← (parseU64 row.srcOffsetElem).map toUInt32
  let dstOffsetElem ← (parseU64 row.dstOffsetElem).map toUInt32
  let gmSpanElems ← parseU64 row.gmSpanElems
  let ubSpanElems ← parseU64 row.ubSpanElems
  guard (gmSpanElems < twoPow32 ∧ ubSpanElems < twoPow32)
  let (totalElems,logicalTotalElems) ← checkTotals row blockDim dim
  let (dims,outputStride,inputStride) ← checkLists row dim
  let ubRequiredElems := dstOffsetElem + max 1 ubSpanElems + 64
  return {
    executionRepeatCount := toUInt32 executionRepeatCount
    blockDim := blockDim
    totalElems := totalElems
    logicalTotalElems := logicalTotalElems
    gmSpanElems := gmSpanElems
    ubSpanElems := ubSpanElems
    tiling := {
      dtype := row.dtype
      dim := dim
      repeat_ := repeat_
      enableStore := enableStore
      blockDim := blockDim
      totalElems := totalElems
      logicalTotalElems := logicalTotalElems
      ubBufferBytes := toUInt32 (ubRequiredElems * dtypeSize row.dtype)
      srcOffsetElem := srcOffsetElem
      dstOffsetElem := dstOffsetElem
      srcCoreStrideElems := toUInt32 (max totalElems gmSpanElems + 64)
      dstCoreStrideElems := toUInt32 (max totalElems ubSpanElems + 64)
      outputDims := fillArray dims
      outputStride := fillArray outputStride
      inputStride := fillArray inputStride } }

/-- The bytes of the source buffer that `RunExperiment` allocates. -/
def srcBytes (exp : Experiment) : Nat :=
  (exp.tiling.srcOffsetElem + exp.tiling.srcCoreStrideElems * max 1 exp.blockDim) * dtypeSize exp.tiling.dtype % twoPow64

/-- The indices at which `BuildExperiment` writes the per-dimension arrays. -/
def hostIndices (exp : Experiment) : List Nat := List.range kMaxDim ++ List.range exp.tiling.dim

section Kernel
variable (t : TilingData)

def fixedTotalSplit : Bool := t.logicalTotalElems ≠ t.totalElems * t.blockDim

/-- The share of a core: where it starts and how many elements it copies, zero if the shape of the tiling holds. -/
structure Share where
  logicalStart : Nat
  splitElems : Nat
  srcCoreBase : Nat
  dstCoreBase : Nat
  deriving DecidableEq, Repr

def logicalStart (core : Nat) : Nat := t.logicalTotalElems * core / t.blockDim

/-- The head of `nddma_kernel`: `none` where the core returns without work. -/
def coreShare (core : Nat) : Option Share :=
  if core ≥ t.blockDim then none
  else if fixedTotalSplit t ∧ t.blockDim > 1 then
    let start := logicalStart t core
    let split := logicalStart t (core + 1) - start
    if split = 0 then none else some ⟨start,split,start,start⟩
  else
    let start := if t.blockDim > 1 then toUInt32 (core * t.totalElems) else 0
    some ⟨start,0,if fixedTotalSplit t then start else toUInt32 (core * t.srcCoreStrideElems),
      if fixedTotalSplit t then start else toUInt32 (core * t.dstCoreStrideElems)⟩

def copyDims (split : Nat) : List Int :=
  let dims := t.outputDims.take t.dim
  if split ≠ 0 then dims.set (t.dim - 1) split else dims

def copyRepeats : Nat := if 1 ≤ t.dim ∧ t.dim ≤ 5 then t.repeat_ else 0

def reads (core : Nat) : List Int :=
  match coreShare t core with
  | none => []
  | some share => (List.range (copyRepeats t)).flatMap fun _ =>
    (offsets ((copyDims t share.splitElems).zip (t.inputStride.take t.dim))).map fun offset =>
      (share.srcCoreBase : Int) + t.srcOffsetElem + offset

def writes (core : Nat) : List Int :=
  match coreShare t core with
  | none => []
  | some share => (List.range (copyRepeats t)).flatMap fun _ =>
    (offsets ((copyDims t share.splitElems).zip (t.outputStride.take t.dim))).map fun offset =>
      (t.dstOffsetElem : Int) + offset

/-- The indices at which a core reads the arrays of the tiling: those of the copies, and the last dimension for a
store, where the index is 32-bit too. -/
def deviceIndices (core : Nat) : List Nat :=
  match coreShare t core with
  | none => []
  | some share =>
    (if 0 < copyRepeats t then List.range t.dim else []) ++
      if t.enableStore ≠ 0 ∧ share.splitElems = 0 then [if t.dim = 0 then twoPow32 - 1 else t.dim - 1] else []

end Kernel
end GraphEngine.Nddma.Harness
