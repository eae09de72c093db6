import Mathlib.Data.List.Basic
import Mathlib.Tactic.Ring
import GraphEngine.Lib.Outcome
import GraphEngine.Nddma.AdHoc
import GraphEngine.Nddma.Round4Fit

/-! The ad hoc predictors compute the fitted model: what the unified tool accepts, the round 3 script accepts
with the same base and the same term on each axis, and the transpose tool has the base and the innermost
term of the round 4 script. -/
namespace GraphEngine.Nddma
open Transpose Round4
open Lib Round3

/-- The layout of the `base` section an entry of the base file stands for. -/
def BaseEntry.layout : BaseEntry → BaseSection
  | .bare coeffs => .flat coeffs
  | .nested base => base

def SameBase (file : BaseFile) (round2 : ParameterSet) : Prop :=
  ∀ dtype entry params, file dtype = some entry → round2 dtype = some params → params.base = some entry.layout

structure Row.Describes (row : Row) (outputDims inputStride outputStride : List Int) (blockDim : Int)
    (dtype : DtypeName) : Prop where
  dim : row.dim = some outputDims.length
  dtype_eq : row.dtype = dtype
  blockDim_eq : row.blockDim = some blockDim
  outputDims_eq : row.outputDims = outputDims
  inputStride_eq : row.inputStride = inputStride
  outputStride_eq : row.outputStride = outputStride

theorem subscript_ok {α : Type} {key : String} {entry : Option α} {value : α}
    (ok : subscript key entry = .ok value) : entry = some value := by
  cases entry with
  | none => cases ok
  | some found => cases ok; rfl

variable {dtype : DtypeName} {file : BaseFile} {entry : BaseEntry} {blockDim kernelRepeat : Int}
  {outputDims inputStride outputStride : List Int}

theorem ParameterSet.get_ok {round2 : ParameterSet} {params : DtypeParams}
    (ok : round2.get dtype = .ok params) : ∃ known, dtype = .known known ∧ round2 known = some params := by
  cases dtype with
  | unknown text => cases ok
  | known known => exact ⟨known,rfl,subscript_ok ok⟩

theorem BaseFile.get_ok (ok : file.get dtype = .ok entry) : ∃ known, dtype = .known known ∧ file known = some entry := by
  cases dtype with
  | unknown text => cases ok
  | known known => exact ⟨known,rfl,subscript_ok ok⟩

theorem BaseEntry.coeffs_ok {coeffs : BaseCoeffs} {blockDim : Int} (ok : entry.coeffs blockDim = .ok coeffs) :
    entry.layout = .flat coeffs := by
  match entry with
  | .bare found => cases ok; rfl
  | .nested (.flat found) => cases ok; rfl
  | .nested (.perCore le2 gt2) => cases ok

section
variable {file : BaseFile} {round2 : ParameterSet} {known : Dtype} {entry : BaseEntry} {params : DtypeParams}
  {coeffs : BaseCoeffs} {bytes cycles : ℚ} {blockDim : Int}

theorem oneDBase_flat (found : round2 known = some params) (flat : params.base = some (.flat coeffs))
    (ok : div bytes (coeffs.pick blockDim).1 = .ok cycles) :
    Round3.oneDBase round2 (.known known) bytes blockDim = .ok (cycles + (coeffs.pick blockDim).2) := by
  have base : Round3.baseParams round2 (.known known) blockDim = .ok (.sized coeffs) := by
    simp only [Round3.baseParams,ParameterSet.get,found,subscript,flat,bind,Except.bind,pure,Except.pure]
  unfold Round3.oneDBase
  rw [base]
  change (do let value ← div bytes (coeffs.pick blockDim).1; return value + (coeffs.pick blockDim).2) = _
  rw [ok]
  rfl

theorem AdHoc.oneDimensionalBaseAndT1_ok (same : SameBase file round2) {dtype : DtypeName}
    {inputStride outputStride : Int} {base t1 : ℚ}
    (ok : AdHoc.oneDimensionalBaseAndT1 file round2 dtype bytes inputStride outputStride blockDim = .ok (base,t1)) :
    Round3.oneDBase round2 dtype bytes blockDim = .ok base ∧
      Round3.oneDCorrection round2 dtype bytes inputStride outputStride blockDim true = .ok t1 := by
  obtain ⟨entry,read,ok⟩ := bind_ok ok
  obtain ⟨known,rfl,inFile⟩ := BaseFile.get_ok read
  obtain ⟨size,sized,ok⟩ := bind_ok ok
  cases sized
  obtain ⟨params,readParams,ok⟩ := bind_ok ok
  have inSet : round2 known = some params := subscript_ok readParams
  obtain ⟨coeffs,readCoeffs,ok⟩ := bind_ok ok
  obtain ⟨cycles,divides,ok⟩ := bind_ok ok
  obtain ⟨nG,readNG,ok⟩ := bind_ok ok
  obtain ⟨nGU,readNGU,ok⟩ := bind_ok ok
  have flat : params.base = some (.flat coeffs) := by
    rw [same known entry params inFile inSet,BaseEntry.coeffs_ok readCoeffs]
  have gate : ((outputStride - 1 : Int) : ℚ) = (outputStride : ℚ) - 1 := by push_cast; ring
  have nGIs := subscript_ok readNG
  have nGUIs := subscript_ok readNGU
  split at ok <;> rename_i many
  · obtain ⟨rho,readRho,ok⟩ := bind_ok ok
    have rhoIs := subscript_ok readRho
    cases ok
    refine ⟨oneDBase_flat inSet flat divides,?_⟩
    have more : ¬blockDim ≤ 2 := by omega
    simp only [Round3.oneDCorrection,ParameterSet.get,inSet,subscript,DtypeName.size,nGIs,nGUIs,rhoIs,bind,
      Except.bind,pure,Except.pure,gate,Bool.not_true,Bool.false_or,decide_eq_true_eq,more,if_false,mul_comm]
  · cases ok
    refine ⟨oneDBase_flat inSet flat divides,?_⟩
    have few : blockDim ≤ 2 := by omega
    simp only [Round3.oneDCorrection,ParameterSet.get,inSet,subscript,DtypeName.size,nGIs,nGUIs,bind,
      Except.bind,pure,Except.pure,gate,Bool.not_true,Bool.false_or,decide_eq_true_eq,few,if_true]

end

def AdHoc.Term.fitted (term : AdHoc.Term) : Round3.Term :=
  ⟨term.axis,term.loopSize,term.dataVolumeBytes,term.inputStrideDelta,term.outputStrideDelta,
    term.n1CyclesPerKernelRepeat⟩

theorem AdHoc.termLoop_ok {round2 : ParameterSet} (same : SameBase file round2) {totalElems dtypeSize : Int}
    {loopSizes inputs outputs : List Int} :
    ∀ (rest : List Int) (axis : Nat) (inner : Int) (terms : List AdHoc.Term),
      AdHoc.termLoop file round2 dtype blockDim kernelRepeat loopSizes inputs outputs totalElems dtypeSize
        rest axis inner = .ok terms →
      Round3.termLoop round2 dtype blockDim true loopSizes inputs outputs totalElems dtypeSize rest axis inner
        = .ok (terms.map AdHoc.Term.fitted) := by
  intro rest
  induction rest with
  | nil =>
    intro axis inner terms ok
    cases ok
    rfl
  | cons loopSize outer ih =>
    intro axis inner terms ok
    obtain ⟨elems,divided,ok⟩ := bind_ok ok
    obtain ⟨⟨unused,t1⟩,formula,ok⟩ := bind_ok ok
    obtain ⟨later,loop,ok⟩ := bind_ok ok
    cases ok
    have delta : ∀ stride : List Int, Round3.strideDelta loopSizes stride axis =
        if axis = 0 then stride.getD axis 0 else |stride.getD axis 0 - (if axis = 0 then 0 else
          ((List.range axis).map fun lower => loopSizes.getD lower 0 * stride.getD lower 0).sum)| + 1 := by
      intro stride
      unfold Round3.strideDelta Round3.expectedStride
      by_cases inmost : axis = 0
      · simp only [inmost,if_true]
      · simp only [inmost,if_false]
    have correction := (AdHoc.oneDimensionalBaseAndT1_ok same formula).2
    simp only [Round3.termLoop,divided,bind,Except.bind,delta,correction,ih _ _ _ loop,pure,Except.pure]
    rfl

theorem AdHoc.checkConfig_ok {size : Int}
    (ok : AdHoc.checkConfig outputDims inputStride outputStride blockDim dtype kernelRepeat = .ok size) :
    inputStride.length = outputDims.length ∧ outputStride.length = outputDims.length ∧ dtype.size = .ok size := by
  simp only [AdHoc.checkConfig,bind,Except.bind,pure,Except.pure,throw,throwThe,MonadExceptOf.throw] at ok
  obtain ⟨-,ok⟩ := check_ok ok
  obtain ⟨lengths,ok⟩ := check_ok ok
  obtain ⟨-,ok⟩ := check_ok ok
  obtain ⟨-,ok⟩ := check_ok ok
  obtain ⟨-,ok⟩ := check_ok ok
  obtain ⟨inputs,outputs⟩ := not_or.mp lengths
  refine ⟨not_not.mp inputs,not_not.mp outputs,?_⟩
  cases dtype with
  | unknown text => cases ok
  | known known => exact (check_ok (check_ok ok).2).2

theorem parseTuple_of_length {parts : List Int} {expected : Nat} (length : parts.length = expected) :
    parseTuple parts expected = .ok parts := by
  unfold parseTuple
  rw [if_neg (not_not.mpr length)]

theorem AdHoc.predict_ok {round2 : ParameterSet} (same : SameBase file round2) {result : AdHoc.Prediction}
    (ok : AdHoc.predict file round2 outputDims inputStride outputStride blockDim dtype kernelRepeat = .ok result)
    {row : Row} (describes : row.Describes outputDims inputStride outputStride blockDim dtype) :
    Round3.inheritedTerms round2 row true =
        .ok (result.nBaseCyclesPerKernelRepeat,result.terms.map AdHoc.Term.fitted) ∧
      result.predictedCyclesPerKernelRepeat =
        result.nBaseCyclesPerKernelRepeat + Round3.t1Sum (result.terms.map AdHoc.Term.fitted) := by
  obtain ⟨size,checked,ok⟩ := bind_ok ok
  obtain ⟨inputs,outputs,sized⟩ := AdHoc.checkConfig_ok checked
  obtain ⟨⟨nBase,unused⟩,formula,ok⟩ := bind_ok ok
  obtain ⟨terms,loop,ok⟩ := bind_ok ok
  cases ok
  have base := (AdHoc.oneDimensionalBaseAndT1_ok same formula).1
  have fitted := AdHoc.termLoop_ok same _ _ _ _ loop
  constructor
  · simp only [Round3.inheritedTerms,describes.dim,describes.dtype_eq,describes.blockDim_eq,describes.outputDims_eq,
      describes.inputStride_eq,describes.outputStride_eq,subscript,parseTuple_of_length inputs,
      parseTuple_of_length outputs,parseTuple_of_length (rfl : outputDims.length = _),sized,base,fitted,
      Option.getD_some,bind,Except.bind,pure,Except.pure]
  · unfold Round3.t1Sum
    rw [List.map_map]
    rfl

theorem inheritedOneDimensionalParameters_ok {round2 inherited : ParameterSet}
    (ok : inheritedOneDimensionalParameters round2 = .ok inherited) (dtype : Dtype) :
    ∃ values base nG, round2 dtype = some values ∧ values.base = some base ∧ values.nG = some nG ∧
      inherited dtype = some { base := some base, nG := some nG, rho := values.rho } := by
  obtain ⟨int8,copied8,ok⟩ := bind_ok ok
  obtain ⟨int16,copied16,ok⟩ := bind_ok ok
  obtain ⟨int32,copied32,ok⟩ := bind_ok ok
  obtain ⟨int64,copied64,ok⟩ := bind_ok ok
  obtain ⟨params,copied,isParams⟩ : ∃ params, (do
      let values ← round2.get (.known dtype)
      let base ← subscript "base" values.base
      let nG ← subscript "N_G" values.nG
      return { base := some base, nG := some nG, rho := values.rho } : Except PyError DtypeParams) = .ok params ∧
      inherited dtype = some params := by
    cases ok
    cases dtype with
    | int8 => exact ⟨_,copied8,rfl⟩
    | int16 => exact ⟨_,copied16,rfl⟩
    | int32 => exact ⟨_,copied32,rfl⟩
    | int64 => exact ⟨_,copied64,rfl⟩
  obtain ⟨values,read,ok⟩ := bind_ok copied
  obtain ⟨base,readBase,ok⟩ := bind_ok ok
  obtain ⟨nG,readNG,ok⟩ := bind_ok ok
  cases ok
  exact ⟨values,base,nG,subscript_ok read,subscript_ok readBase,subscript_ok readNG,isParams⟩

section Transposed
variable {file : BaseFile} {round2 inherited : ParameterSet} (same : SameBase file round2)
  (handedOn : Round4.inheritedOneDimensionalParameters round2 = .ok inherited)
  {dtype : DtypeName} {bytes cycles : ℚ} {blockDim : Int}
include same handedOn

theorem oneDBase_ok (accepted : Transpose.oneDBase file dtype bytes blockDim = .ok cycles) :
    Round4.oneDBase round2 dtype bytes blockDim = .ok cycles := by
  obtain ⟨entry,read,ok⟩ := bind_ok accepted
  obtain ⟨known,rfl,inFile⟩ := BaseFile.get_ok read
  obtain ⟨coeffs,readCoeffs,ok⟩ := bind_ok ok
  obtain ⟨quotient,divides,ok⟩ := bind_ok ok
  cases ok
  obtain ⟨values,-,-,inSet,-⟩ := inheritedOneDimensionalParameters_ok handedOn known
  have flat : values.base = some (.flat coeffs) := by
    rw [same known entry values inFile inSet,BaseEntry.coeffs_ok readCoeffs]
  exact oneDBase_flat inSet flat divides

omit same in
theorem oneDG1_ok {inputStride : Int} (ok : oneDG1 inherited dtype bytes inputStride blockDim = .ok cycles) :
    oneDGmCorrection round2 dtype bytes inputStride blockDim = .ok cycles := by
  obtain ⟨params,read,-⟩ := bind_ok ok
  obtain ⟨known,rfl,-⟩ := ParameterSet.get_ok read
  obtain ⟨values,base,nG,inSet,-,hasNG,copied⟩ := inheritedOneDimensionalParameters_ok handedOn known
  rw [← ok]
  simp only [oneDGmCorrection,oneDG1,ParameterSet.get,inSet,copied,subscript,DtypeName.size,hasNG,
    lowByteStrideMax,bind,Except.bind,pure,Except.pure]

theorem predict_ok {ng2 : Dtype → Option Transpose.NG2} {outputDims inputStride outputStride : List Int}
    {kernelRepeat : Int} {result : Transpose.Prediction}
    (ok : Transpose.predict file inherited ng2 outputDims inputStride outputStride blockDim dtype kernelRepeat
      = .ok result) :
    ∃ known : Dtype, dtype = .known known ∧ outputDims = [result.m,result.n] ∧ inputStride = [result.is2,result.is1] ∧
      result.dataVolumeBytes = result.m * result.n * known.size ∧ result.b1Bytes = result.n * known.size ∧
      Round4.oneDBase round2 dtype result.dataVolumeBytes blockDim = .ok result.nBaseCyclesPerKernelRepeat ∧
      Round4.oneDGmCorrection round2 dtype result.b1Bytes result.is1 blockDim =
        .ok result.nG1CyclesPerKernelRepeat := by
  simp only [Transpose.predict,throw,throwThe,MonadExceptOf.throw] at ok
  obtain ⟨dims,ok⟩ := check_ok ok
  obtain ⟨lengths,ok⟩ := check_ok ok
  obtain ⟨-,ok⟩ := check_ok ok
  obtain ⟨-,ok⟩ := check_ok ok
  obtain ⟨-,ok⟩ := check_ok ok
  obtain ⟨-,ok⟩ := check_ok ok
  obtain ⟨-,ok⟩ := check_ok ok
  obtain ⟨m,n,rfl⟩ := List.length_eq_two.mp (not_not.mp dims)
  obtain ⟨is2,is1,rfl⟩ := List.length_eq_two.mp (not_not.mp (not_or.mp lengths).1)
  cases dtype with
  | unknown text => cases ok
  | known known =>
    obtain ⟨-,ok⟩ := check_ok ok
    obtain ⟨-,ok⟩ := check_ok ok
    obtain ⟨values,-,ok⟩ := bind_ok ok
    obtain ⟨nBase,base,ok⟩ := bind_ok ok
    obtain ⟨nG1,innermost,ok⟩ := bind_ok ok
    cases ok
    exact ⟨known,rfl,rfl,rfl,rfl,rfl,oneDBase_ok same handedOn base,
      oneDG1_ok handedOn innermost⟩

end Transposed
theorem preparePoint_ok {round2 : ParameterSet} {row : Row} {point : Round4.Point} {m n is2 is1 : Int} {known : Dtype}
    (describes : row.Describes [m,n] [is2,is1] outputStride blockDim (.known known))
    (ok : Round4.preparePoint round2 row = .ok point) :
    Round4.oneDBase round2 (.known known) (m * n * known.size : Int) blockDim = .ok point.nBaseCycles ∧
      Round4.oneDGmCorrection round2 (.known known) (n * known.size : Int) is1 blockDim = .ok point.nG1Cycles := by
  simp only [Round4.preparePoint,describes.outputDims_eq,describes.inputStride_eq,describes.blockDim_eq,
    describes.dtype_eq,throw,throwThe,MonadExceptOf.throw] at ok
  obtain ⟨shape,unpacked,ok⟩ := bind_ok ok
  cases unpacked
  obtain ⟨strides,unpacked,ok⟩ := bind_ok ok
  cases unpacked
  obtain ⟨cores,read,ok⟩ := bind_ok ok
  cases read
  obtain ⟨size,sized,ok⟩ := bind_ok ok
  cases sized
  obtain ⟨nBase,base,ok⟩ := bind_ok ok
  obtain ⟨nG1,innermost,ok⟩ := bind_ok ok
  obtain ⟨actual,-,ok⟩ := bind_ok ok
  obtain ⟨-,ok⟩ := check_ok ok
  cases ok
  exact ⟨base,innermost⟩

/-- Whatever the unified tool accepts, the round 3 script accepts for the row of the same shape and strides, with the same
base and terms, and the prediction of one repeat is their sum. The transpose tool, on the parameters of the round 4 model,
has the base and the innermost term of the round 4 script, also in every point the script prepares. -/
theorem predictors_agree_with_fits (file : BaseFile) (round2 : ParameterSet) (same : SameBase file round2) :
    (∀ (outputDims inputStride outputStride : List Int) (blockDim kernelRepeat : Int) (dtype : DtypeName)
      (result : AdHoc.Prediction) (row : Row),
      2 ≤ outputDims.length → outputDims.length ≤ 5 →
      row.Describes outputDims inputStride outputStride blockDim dtype →
      AdHoc.predict file round2 outputDims inputStride outputStride blockDim dtype kernelRepeat = .ok result →
      ∃ nBase terms, Round3.inheritedTerms round2 row true = .ok (nBase,terms) ∧
        result.nBaseCyclesPerKernelRepeat = nBase ∧ result.terms.map AdHoc.Term.fitted = terms ∧
        result.predictedCyclesPerKernelRepeat = nBase + (terms.map (·.t1Cycles)).sum) ∧
    ∀ (inherited : ParameterSet) (ng2 : Dtype → Option Transpose.NG2) (outputDims inputStride outputStride : List Int)
      (blockDim kernelRepeat : Int) (dtype : DtypeName) (result : Transpose.Prediction) (row : Row),
      Round4.inheritedOneDimensionalParameters round2 = .ok inherited →
      row.Describes outputDims inputStride outputStride blockDim dtype →
      Transpose.predict file inherited ng2 outputDims inputStride outputStride blockDim dtype kernelRepeat
        = .ok result →
      Round4.oneDBase round2 dtype result.dataVolumeBytes blockDim = .ok result.nBaseCyclesPerKernelRepeat ∧
        Round4.oneDGmCorrection round2 dtype result.b1Bytes result.is1 blockDim =
          .ok result.nG1CyclesPerKernelRepeat ∧
        ∀ point, Round4.preparePoint round2 row = .ok point →
          point.nBaseCycles = result.nBaseCyclesPerKernelRepeat ∧
            point.nG1Cycles = result.nG1CyclesPerKernelRepeat := by
  refine ⟨?_,?_⟩
  · intro outputDims inputStride outputStride blockDim kernelRepeat dtype result row _ _ describes ok
    obtain ⟨accepted,total⟩ := AdHoc.predict_ok same ok describes
    exact ⟨_,_,accepted,rfl,rfl,total⟩
  · intro inherited ng2 outputDims inputStride outputStride blockDim kernelRepeat dtype result row handedOn
      describes ok
    obtain ⟨known,rfl,rfl,rfl,volume,inner,base,innermost⟩ := predict_ok same handedOn ok
    refine ⟨base,innermost,?_⟩
    intro point prepared
    obtain ⟨pointBase,pointInnermost⟩ := preparePoint_ok describes prepared
    rw [volume] at base
    rw [inner] at innermost
    exact ⟨Except.ok.inj (pointBase.symm.trans base),Except.ok.inj (pointInnermost.symm.trans innermost)⟩

namespace Sample

def round2 : ParameterSet := fun _ => some {
  base := some (.flat ⟨20,100,10,200⟩)
  nG := some ⟨2,1 / 100⟩
  nGU := some ⟨3,1 / 10,1 / 50,1 / 1000⟩
  rho := some ⟨6 / 5,1 / 1000,3 / 10,1 / 500⟩ }

def base : BaseFile := fun _ => some (.bare ⟨20,100,10,200⟩)

theorem base_same : SameBase base round2 := by
  intro dtype entry params inFile inSet
  cases inFile
  cases inSet
  rfl

def row : Row := {
  dim := some 2
  dtype := .known .int64
  blockDim := some 72
  outputDims := [63,2]
  inputStride := [1,70]
  outputStride := [2,1]
  actualY := some 1000 }

end Sample

/-- Both tools on a transposed row of 63 by 2 elements. -/
theorem predictors_agree_on_sample :
    (∃ result, AdHoc.predict Sample.base Sample.round2 [63,2] [1,70] [2,1] 72 (.known .int64) 3 = .ok result ∧
      ∃ nBase terms, Round3.inheritedTerms Sample.round2 Sample.row true = .ok (nBase,terms) ∧
        result.nBaseCyclesPerKernelRepeat = nBase ∧ result.terms.map AdHoc.Term.fitted = terms ∧
        result.predictedCyclesPerKernelRepeat = nBase + (terms.map (·.t1Cycles)).sum) ∧
    ∃ inherited result point, Round4.inheritedOneDimensionalParameters Sample.round2 = .ok inherited ∧
      Transpose.predict Sample.base inherited (fun _ => some ⟨1,2,3,4⟩) [63,2] [1,70] [2,1] 72 (.known .int64) 3
        = .ok result ∧
      Round4.preparePoint Sample.round2 Sample.row = .ok point ∧
      point.nBaseCycles = result.nBaseCyclesPerKernelRepeat ∧ point.nG1Cycles = result.nG1CyclesPerKernelRepeat := by
  have describes : Sample.row.Describes [63,2] [1,70] [2,1] 72 (.known .int64) := ⟨rfl,rfl,rfl,rfl,rfl,rfl⟩
  obtain ⟨unified,transposed⟩ := predictors_agree_with_fits Sample.base Sample.round2 Sample.base_same
  have prepared : (Round4.preparePoint Sample.round2 Sample.row).toOption.isSome := by decide +kernel
  obtain ⟨point,isPoint⟩ := Option.isSome_iff_exists.mp prepared
  have isPoint : Round4.preparePoint Sample.round2 Sample.row = .ok point := by
    cases result : Round4.preparePoint Sample.round2 Sample.row with
    | error error => rw [result] at isPoint; cases isPoint
    | ok found => rw [result] at isPoint; cases isPoint; rfl
  refine ⟨⟨_,rfl,unified [63,2] [1,70] [2,1] 72 3 _ _ Sample.row (by decide) (by decide) describes rfl⟩,
    _,_,point,rfl,rfl,isPoint,?_⟩
  exact (transposed _ (fun _ => some ⟨1,2,3,4⟩) _ _ _ _ 3 _ _ Sample.row rfl describes rfl).2.2 point isPoint

end GraphEngine.Nddma
