import GraphEngine.Nddma.Round5Fit
import GraphEngine.Nddma.Agreement

/-! The two-stage fit returns the coefficients its samples were made with. Both designs are the model's own prediction as a
product of features and coefficients, and the first stage sees no sample with a multiplier. -/
namespace GraphEngine.Nddma.Round5

open Lib Matrix Function List
open Round3 (inheritedTerms t1Sum actualValue termLoop oneDBase baseParams)

structure Corrections where
  nG : NG
  nGU : NGU
  rho : Rho
  deriving DecidableEq, Repr

namespace Corrections
variable (c : Corrections) (dtype : Dtype) (term : Round3.Term)

def few : ℚ :=
  (c.nG.a1 + c.nG.a2 * term.dataVolumeBytes) * strideBytes dtype term +
    ((c.nGU.b1 + c.nGU.b2 * strideBytes dtype term) +
      (c.nGU.b3 + c.nGU.b4 * strideBytes dtype term) * term.dataVolumeBytes) * outputGate term

def multiplier : ℚ :=
  c.rho.c1 + c.rho.c2 * strideBytes dtype term + outputGate term * (c.rho.c3 + c.rho.c4 * strideBytes dtype term)

def cycles (multiplied : Bool) : ℚ := if multiplied then c.multiplier dtype term * c.few dtype term else c.few dtype term

def restate (multiplied : Bool) : Round3.Term := { term with t1Cycles := c.cycles dtype term multiplied }

def first : Fin 6 → ℚ := ![c.nG.a1,c.nG.a2,c.nGU.b1,c.nGU.b2,c.nGU.b3,c.nGU.b4]

def second : Fin 4 → ℚ := ![c.rho.c1,c.rho.c2,c.rho.c3,c.rho.c4]

end Corrections

def Carries (parameters : ParameterSet) (dtype : Dtype) (c : Corrections) : Prop :=
  ∃ params, parameters dtype = some params ∧ params.nG = some c.nG ∧ params.nGU = some c.nGU ∧ params.rho = some c.rho

def baseOf (parameters : ParameterSet) (dtype : Dtype) : Option BaseSection := (parameters dtype).bind (·.base)

section Restate
variable {P Q : ParameterSet} {dtype : Dtype} {c d : Corrections}

theorem oneDCorrection_eq (carries : Carries P dtype c) (term : Round3.Term) (blockDim : Int) (useCoreRho : Bool) :
    Round3.oneDCorrection P (.known dtype) term.dataVolumeBytes term.inputStrideDelta term.outputStrideDelta blockDim
      useCoreRho = .ok (c.cycles dtype term (useCoreRho && decide (2 < blockDim))) := by
  obtain ⟨params,found,hasNG,hasNGU,hasRho⟩ := carries
  have gate : ((term.outputStrideDelta - 1 : Int) : ℚ) = (term.outputStrideDelta : ℚ) - 1 := by push_cast; ring
  simp only [Round3.oneDCorrection,ParameterSet.get,found,subscript,DtypeName.size,hasNG,hasNGU,hasRho,bind,
    Except.bind,pure,Except.pure,gate,Corrections.cycles,Corrections.few,Corrections.multiplier,strideBytes,outputGate]
  cases useCoreRho with
  | false => simp
  | true =>
    by_cases many : 2 < blockDim
    · have notFew : ¬blockDim ≤ 2 := by omega
      simp [many,notFew]
    · have few : blockDim ≤ 2 := by omega
      simp [many,few]

variable {blockDim : Int} {useCoreRho : Bool}

theorem termLoop_restate (carries : Carries Q dtype d) (useCoreRho' : Bool) {loopSizes inputs outputs : List Int}
    {totalElems dtypeSize : Int} :
    ∀ (rest : List Int) (axis : Nat) (inner : Int) (terms : List Round3.Term),
      termLoop P (.known dtype) blockDim useCoreRho loopSizes inputs outputs totalElems dtypeSize rest axis
        inner = .ok terms →
      termLoop Q (.known dtype) blockDim useCoreRho' loopSizes inputs outputs totalElems dtypeSize rest axis
        inner = .ok (terms.map (d.restate dtype · (useCoreRho' && decide (2 < blockDim)))) := by
  intro rest
  induction rest with
  | nil =>
    intro axis inner terms ok
    cases ok
    rfl
  | cons loopSize outer ih =>
    intro axis inner terms ok
    obtain ⟨elems,divided,ok⟩ := bind_ok ok
    obtain ⟨t1,corrected,ok⟩ := bind_ok ok
    obtain ⟨later,loop,ok⟩ := bind_ok ok
    cases ok
    have correction := oneDCorrection_eq carries ⟨axis,loopSize,elems * dtypeSize,
      Round3.strideDelta loopSizes inputs axis,Round3.strideDelta loopSizes outputs axis,t1⟩ blockDim useCoreRho'
    simp only [termLoop,divided,bind,Except.bind,correction,ih _ _ _ loop,pure,Except.pure]
    rfl

theorem oneDBase_congr {entry : DtypeParams} (found : Q dtype = some entry) (same : baseOf P dtype = baseOf Q dtype)
    {bytes cycles : ℚ} (ok : oneDBase P (.known dtype) bytes blockDim = .ok cycles) :
    oneDBase Q (.known dtype) bytes blockDim = .ok cycles := by
  obtain ⟨core,chosen,rest⟩ := bind_ok ok
  obtain ⟨params,read,picked⟩ := bind_ok chosen
  have inP : P dtype = some params := subscript_ok read
  obtain ⟨base,readBase,-⟩ := bind_ok picked
  have hasBase := subscript_ok readBase
  have alike : entry.base = params.base := by
    simpa [baseOf,inP,found] using same.symm
  have again : baseParams Q (.known dtype) blockDim = baseParams P (.known dtype) blockDim := by
    simp only [baseParams,ParameterSet.get,found,inP,subscript,bind,Except.bind,alike]
  rw [← ok]
  unfold oneDBase
  rw [again]

theorem inheritedTerms_restate (carries : Carries Q dtype d)
    (same : baseOf P dtype = baseOf Q dtype) {row : Row} (typed : row.dtype = .known dtype) (useCoreRho' : Bool) {base : ℚ}
      {terms : List Round3.Term}
    (ok : inheritedTerms P row useCoreRho = .ok (base,terms)) : inheritedTerms Q row useCoreRho' =
      .ok (base,terms.map (d.restate dtype · (useCoreRho' && decide (2 < row.blockDim.getD 1)))) := by
  unfold inheritedTerms at ok ⊢
  rw [typed] at ok ⊢
  obtain ⟨dim,hasDim,ok⟩ := bind_ok ok
  obtain ⟨dims,parsedDims,ok⟩ := bind_ok ok
  obtain ⟨inputs,parsedInputs,ok⟩ := bind_ok ok
  obtain ⟨outputs,parsedOutputs,ok⟩ := bind_ok ok
  obtain ⟨size,sized,ok⟩ := bind_ok ok
  obtain ⟨value,based,ok⟩ := bind_ok ok
  obtain ⟨found,loop,ok⟩ := bind_ok ok
  cases ok
  have loop' := termLoop_restate carries useCoreRho' _ _ _ _ loop
  obtain ⟨entry,inQ,-⟩ := carries
  have based' := oneDBase_congr inQ same based
  simp only [hasDim,parsedDims,parsedInputs,parsedOutputs,sized,based',loop',bind,Except.bind,pure,Except.pure]

end Restate
section Features
variable {n : Nat} {α : Type}

private theorem foldl_add_sum (f : α → Fin n → ℚ) (start : Fin n → ℚ) (items : List α) :
    items.foldl (fun total item => total + f item) start = start + (items.map f).sum := by
  induction items generalizing start with
  | nil => simp
  | cons item items ih => rw [foldl_cons,ih,map_cons,sum_cons,add_assoc]

private theorem sum_dotProduct (f : α → Fin n → ℚ) (x : Fin n → ℚ) (items : List α) :
    (items.map f).sum ⬝ᵥ x = (items.map fun item => f item ⬝ᵥ x).sum := by
  induction items with
  | nil => simp
  | cons item items ih => rw [map_cons,sum_cons,add_dotProduct,ih,map_cons,sum_cons]

variable (dtype : Dtype) (terms : List Round3.Term) (c : Corrections)

theorem correctionFeatures_dotProduct : correctionFeatures dtype terms ⬝ᵥ c.first = (terms.map (c.few dtype)).sum := by
  unfold correctionFeatures
  rw [foldl_add_sum,zero_add,sum_dotProduct]
  congr 1
  refine map_congr_left fun term _ => ?_
  simp only [Corrections.first,Corrections.few,dotProduct,Fin.sum_univ_six,cons_val]
  ring

theorem rhoFeatures_dotProduct : rhoFeatures dtype (terms.map (c.restate dtype · false)) ⬝ᵥ c.second =
      (terms.map fun term => c.multiplier dtype term * c.few dtype term).sum := by
  unfold rhoFeatures
  rw [foldl_add_sum,zero_add,sum_dotProduct,List.map_map]
  congr 1
  refine map_congr_left fun term _ => ?_
  simp only [Function.comp,Corrections.restate,Corrections.cycles,Corrections.second,Corrections.multiplier,
    strideBytes,outputGate,dotProduct,Fin.sum_univ_four,Pi.smul_apply,smul_eq_mul,cons_val]
  simp only [Bool.false_eq_true,if_false]
  ring

theorem correctionFeatures_restate (multiplied : Bool) :
    correctionFeatures dtype (terms.map (c.restate dtype · multiplied)) = correctionFeatures dtype terms := by
  unfold correctionFeatures
  rw [foldl_map]
  rfl

end Features

theorem solve_consistent (solver : Solver ℚ) {n : Nat} {design : List (Fin n → ℚ)} (full : FullColumnRank design)
    (truth : Fin n → ℚ) (label : String) : solve solver design (design.map (· ⬝ᵥ truth)) label = .ok truth := by
  have nonzero : ∀ j, columnScale design j ≠ 0 := by
    intro j
    unfold columnScale
    dsimp only
    split
    · rename_i positive
      exact ne_of_gt positive
    · exact one_ne_zero
  have scaledBack : design.map (· ⬝ᵥ truth) =
      (design.map (· / columnScale design)).map (· ⬝ᵥ (truth * columnScale design)) := by
    rw [List.map_map]
    refine map_congr_left fun row _ => Finset.sum_congr rfl fun j _ => ?_
    change row j * truth j = row j / columnScale design j * (truth j * columnScale design j)
    field_simp [nonzero j]
  have enough := full.le_length
  have scaledFull := full.scaled nonzero
  unfold solve
  rw [if_neg (by omega),scaledBack]
  dsimp only
  rw [if_neg (not_not.mpr (solver.rank_eq _ _ scaledFull)),solver.lstsq_map scaledFull]
  congr 1
  funext j
  rw [Pi.div_apply,Pi.mul_apply,mul_div_assoc,div_self (nonzero j),mul_one]

variable {α β : Type} {f : α → Except PyError β}

private theorem mapM_ok {holds : β → Prop} (items : List α) (each : ∀ item ∈ items, ∃ value, f item = .ok value ∧ holds value) :
    ∃ values, items.mapM f = .ok values ∧ ∀ value ∈ values, holds value := by
  induction items with
  | nil => exact ⟨[],rfl,fun value none => absurd none not_mem_nil⟩
  | cons item items ih =>
    obtain ⟨value,known,fine⟩ := each item mem_cons_self
    obtain ⟨values,rest,all⟩ := ih fun other inside => each other (mem_cons_of_mem _ inside)
    refine ⟨value :: values,?_,?_⟩
    · rw [mapM_cons,known,rest]
      rfl
    · exact forall_mem_cons.mpr ⟨fine,all⟩

private theorem mapM_congr {g : α → Except PyError β} {items : List α}
    (same : ∀ item ∈ items, f item = g item) : items.mapM f = items.mapM g := by
  induction items with
  | nil => rfl
  | cons item items ih =>
    rw [mapM_cons,mapM_cons,same item mem_cons_self,
      ih fun other inside => same other (mem_cons_of_mem _ inside)]

def specialize (round2 : ParameterSet) (truth : Dtype → Corrections) : ParameterSet := fun dtype =>
  (round2 dtype).map fun params => { params with
    nG := some (truth dtype).nG
    nGU := some (truth dtype).nGU
    rho := some (truth dtype).rho }

def Measured (round2 : ParameterSet) (truth : Dtype → Corrections) (row : Row) : Prop :=
  ∃ base terms, Round3.inheritedTerms (specialize round2 truth) row true = .ok (base,terms) ∧
    Round3.actualValue row = .ok (base + Round3.t1Sum terms)

section Stages
variable {round2 : ParameterSet} {truth : Dtype → Corrections} {dtype : Dtype}
  {params : DtypeParams} {row : Row} {n : Nat} {parameters : ParameterSet}
  {features : List Round3.Term → Fin n → ℚ} {coeffs : Fin n → ℚ} {c : Corrections} {Q : ParameterSet}
  {rows : List Row}

theorem specialize_of_some (found : round2 dtype = some params) : specialize round2 truth dtype = some { params with
      nG := some (truth dtype).nG
      nGU := some (truth dtype).nGU
      rho := some (truth dtype).rho } := by
  simp only [specialize,found,Option.map_some]

theorem specialize_carries (found : round2 dtype = some params) : Carries (specialize round2 truth) dtype (truth dtype) := by
  exact ⟨_,specialize_of_some found,rfl,rfl,rfl⟩

theorem specialize_baseOf : baseOf (specialize round2 truth) dtype = baseOf round2 dtype := by
  unfold baseOf specialize
  cases round2 dtype <;> rfl

theorem Measured.typed (measured : Measured round2 truth row) : ∃ dtype, row.dtype = .known dtype := by
  obtain ⟨base,terms,ok,-⟩ := measured
  unfold inheritedTerms at ok
  obtain ⟨_,-,ok⟩ := bind_ok ok
  obtain ⟨_,-,ok⟩ := bind_ok ok
  obtain ⟨_,-,ok⟩ := bind_ok ok
  obtain ⟨_,-,ok⟩ := bind_ok ok
  obtain ⟨size,sized,-⟩ := bind_ok ok
  cases named : row.dtype with
  | known dtype => exact ⟨dtype,rfl⟩
  | unknown text => rw [named] at sized; cases sized

theorem Measured.terms (measured : Measured round2 truth row) (typed : row.dtype = .known dtype)
    (found : round2 dtype = some params) :
    ∃ (base : ℚ) (terms : List Round3.Term), actualValue row = .ok (base +
        (terms.map fun term => (truth dtype).cycles dtype term (decide (2 < row.blockDim.getD 1))).sum) ∧
      ∀ {Q : ParameterSet} {d : Corrections} (useCoreRho : Bool), Carries Q dtype d → baseOf Q dtype = baseOf round2 dtype →
        inheritedTerms Q row useCoreRho =
          .ok (base,terms.map (d.restate dtype · (useCoreRho && decide (2 < row.blockDim.getD 1)))) := by
  obtain ⟨base,terms,ok,actual⟩ := measured
  refine ⟨base,terms,?_,?_⟩
  · have again := inheritedTerms_restate (specialize_carries found) rfl typed true ok
    have itself : terms = terms.map ((truth dtype).restate dtype · (true && decide (2 < row.blockDim.getD 1))) := by
      rw [ok] at again
      exact congrArg Prod.snd (Except.ok.inj again)
    rw [actual]
    have total : t1Sum terms =
        (terms.map fun term => (truth dtype).cycles dtype term (decide (2 < row.blockDim.getD 1))).sum := by
      conv_lhs => rw [itself]
      unfold t1Sum
      rw [List.map_map]
      rfl
    rw [total]
  · intro Q d useCoreRho carries same
    exact inheritedTerms_restate carries (specialize_baseOf.trans same.symm) typed useCoreRho ok

variable (solver : Solver ℚ)

theorem fitStage_consistent (rows : List Row)
    (full : ∀ samples, stageSamples parameters features rows = .ok samples → FullColumnRank (samples.map (·.1)))
    (each : ∀ row ∈ rows, ∃ sample, stageSample parameters features row = .ok sample ∧ sample.2 = sample.1 ⬝ᵥ coeffs)
    (label : String) : fitStage solver parameters features rows label = .ok coeffs := by
  obtain ⟨samples,ok,consistent⟩ : ∃ samples, stageSamples parameters features rows = .ok samples ∧ _ := mapM_ok rows each
  have fits : samples.map (·.2) = (samples.map (·.1)).map (· ⬝ᵥ coeffs) := by
    rw [List.map_map]
    exact map_congr_left consistent
  unfold fitStage
  rw [ok]
  change solve solver (samples.map (·.1)) (samples.map (·.2)) label = _
  rw [fits]
  exact solve_consistent solver (full samples ok) coeffs label

theorem stageSample_eq
    {base value : ℚ} {terms : List Round3.Term} (evaluated : inheritedTerms parameters row false = .ok (base,terms))
    (actual : actualValue row = .ok value) :
    stageSample parameters features row = .ok (features terms,value - base) := by
  unfold stageSample
  rw [evaluated,actual]
  rfl

section

variable (measured : Measured round2 truth row)
include measured

variable (typed : row.dtype = .known dtype)
include typed

theorem lower_consistent (few : row.blockDim.getD 1 ≤ 2) (carries : Carries round2 dtype c) :
    ∃ sample, stageSample round2 (correctionFeatures dtype) row = .ok sample ∧
      sample.2 = sample.1 ⬝ᵥ (truth dtype).first := by
  obtain ⟨params,found,-⟩ := id carries
  obtain ⟨base,terms,actual,evaluate⟩ := measured.terms typed found
  have notMany : decide (2 < row.blockDim.getD 1) = false := decide_eq_false (by omega)
  rw [notMany] at actual
  refine ⟨_,stageSample_eq (evaluate false carries rfl) actual,?_⟩
  dsimp only
  rw [correctionFeatures_restate,correctionFeatures_dotProduct,add_sub_cancel_left]
  rfl

theorem upper_consistent (many : row.blockDim.getD 1 > 2) (found : round2 dtype = some params) :
    ∃ sample, stageSample (specialize round2 truth) (rhoFeatures dtype) row = .ok sample ∧
      sample.2 = sample.1 ⬝ᵥ (truth dtype).second := by
  obtain ⟨base,terms,actual,evaluate⟩ := measured.terms typed found
  have isMany : decide (2 < row.blockDim.getD 1) = true := decide_eq_true (by omega)
  rw [isMany] at actual
  refine ⟨_,stageSample_eq (evaluate false (specialize_carries found) specialize_baseOf) actual,?_⟩
  dsimp only
  rw [Bool.false_and,rhoFeatures_dotProduct,add_sub_cancel_left]
  rfl

end

structure Identifiable (round2 : ParameterSet) (truth : Dtype → Corrections) (rows : List Row) (dtype : Dtype) : Prop where
  lower : ∀ samples, stageSamples round2 (correctionFeatures dtype) (lowerRows rows dtype) = .ok samples →
    FullColumnRank (samples.map (·.1))
  upper : ∀ samples, stageSamples (specialize round2 truth) (rhoFeatures dtype) (upperRows rows dtype) = .ok samples →
    FullColumnRank (samples.map (·.1))

private theorem not_full_nil : ¬FullColumnRank ([] : List (Fin (n + 1) → ℚ)) := by
  intro full
  have bound := full.le_length
  simp at bound

theorem mem_upperRows (inside : row ∈ upperRows rows dtype) :
    row ∈ rows ∧ row.dtype = .known dtype ∧ row.blockDim.getD 1 > 2 := by
  unfold upperRows at inside
  rw [mem_filter,mem_filter,decide_eq_true_eq,decide_eq_true_eq] at inside
  exact ⟨inside.1.1,inside.1.2,inside.2⟩

variable (measured : ∀ row ∈ rows, Measured round2 truth row)
include measured

theorem fitDtype_recovers (carries : Carries round2 dtype c) (identifiable : Identifiable round2 truth rows dtype)
    (specialized : ParameterSet) (untouched : specialized dtype = round2 dtype) (diagnostics : List Diagnostics) :
    ∃ diagnostics', fitDtype solver rows round2 (specialized,diagnostics) dtype =
      .ok (update specialized dtype (specialize round2 truth dtype),diagnostics') := by
  obtain ⟨params,found,hasNG,hasNGU,hasRho⟩ := id carries
  have nonempty : ¬((lowerRows rows dtype).isEmpty ∨ (upperRows rows dtype).isEmpty) := by
    rintro (empty | empty)
    · rw [List.isEmpty_iff] at empty
      exact not_full_nil (identifiable.lower [] (by rw [empty]; rfl))
    · rw [List.isEmpty_iff] at empty
      exact not_full_nil (identifiable.upper [] (by rw [empty]; rfl))
  have stage₁ : ∀ label, fitStage solver round2 (correctionFeatures dtype) (lowerRows rows dtype) label =
      .ok (truth dtype).first := by
    intro label
    apply fitStage_consistent solver _ identifiable.lower
    intro row inside
    unfold lowerRows at inside
    rw [mem_filter,mem_filter,decide_eq_true_eq,decide_eq_true_eq] at inside
    exact lower_consistent (measured row inside.1.1) inside.1.2 inside.2 carries
  have stage₂ : ∀ label, fitStage solver (specialize round2 truth) (rhoFeatures dtype) (upperRows rows dtype) label =
      .ok (truth dtype).second := by
    intro label
    apply fitStage_consistent solver _ identifiable.upper
    intro row inside
    obtain ⟨known,typed,many⟩ := mem_upperRows inside
    exact upper_consistent (measured row known) typed many found
  -- the parameters between the stages
  obtain ⟨between,isBetween⟩ : ∃ between : ParameterSet,
      between = update specialized dtype (some (params.setCorrections (truth dtype).first)) := ⟨_,rfl⟩
  have entry : between dtype = some (params.setCorrections (truth dtype).first) := by
    rw [isBetween,update_self]
  have betweenCarries : Carries between dtype ⟨(truth dtype).nG,(truth dtype).nGU,c.rho⟩ := ⟨_,entry,rfl,rfl,hasRho⟩
  have betweenBase : baseOf between dtype = baseOf round2 dtype := by
    unfold baseOf
    rw [found,entry]
    rfl
  have stage₂' : ∀ label, fitStage solver between (rhoFeatures dtype) (upperRows rows dtype) label =
      .ok (truth dtype).second := by
    intro label
    rw [← stage₂ label]
    unfold fitStage stageSamples
    rw [mapM_congr]
    intro row inside
    obtain ⟨known,typed,_⟩ := mem_upperRows inside
    obtain ⟨base,terms,actual,evaluate⟩ := (measured row known).terms typed found
    rw [stageSample_eq (evaluate false betweenCarries betweenBase) actual,
      stageSample_eq (evaluate false (specialize_carries found) specialize_baseOf) actual]
    rfl
  have read : specialized.get (.known dtype) = .ok params := by
    change subscript dtype.name (specialized dtype) = _
    rw [untouched,found]
    rfl
  refine ⟨diagnostics ++ [⟨dtype,(lowerRows rows dtype).length,(upperRows rows dtype).length⟩],?_⟩
  have placed : update between dtype (some ((params.setCorrections (truth dtype).first).setRho
      (truth dtype).second)) = update specialized dtype (specialize round2 truth dtype) := by
    rw [isBetween,update_idem,specialize_of_some found]
    rfl
  simp only [fitDtype,if_neg nonempty,stage₁,read,bind,Except.bind,pure,Except.pure,← isBetween,stage₂',placed]

theorem foldlM_recovers
    (carries : ∀ dtype, ∃ c, Carries round2 dtype c) (identifiable : ∀ dtype, Identifiable round2 truth rows dtype) :
    ∀ (dtypes : List Dtype), dtypes.Nodup → ∀ (specialized : ParameterSet),
      (∀ dtype ∈ dtypes, specialized dtype = round2 dtype) → ∀ diagnostics : List Diagnostics,
      ∃ final diagnostics', dtypes.foldlM (fitDtype solver rows round2) (specialized,diagnostics) =
          .ok (final,diagnostics') ∧ (∀ dtype ∈ dtypes, final dtype = specialize round2 truth dtype) ∧
        ∀ dtype, dtype ∉ dtypes → final dtype = specialized dtype := by
  intro dtypes
  induction dtypes with
  | nil =>
    intro _ specialized _ diagnostics
    exact ⟨specialized,diagnostics,rfl,fun dtype none => absurd none not_mem_nil,fun _ _ => rfl⟩
  | cons dtype dtypes ih =>
    intro distinct specialized untouched diagnostics
    obtain ⟨fresh,distinct⟩ := nodup_cons.mp distinct
    obtain ⟨c,carriesHere⟩ := carries dtype
    obtain ⟨between,fitted⟩ := fitDtype_recovers solver measured carriesHere (identifiable dtype) specialized
      (untouched dtype mem_cons_self) diagnostics
    have later : ∀ other ∈ dtypes,
        update specialized dtype (specialize round2 truth dtype) other = round2 other := by
      intro other inside
      have other_ne : other ≠ dtype := fun same => fresh (same ▸ inside)
      rw [update_of_ne other_ne]
      exact untouched other (mem_cons_of_mem _ inside)
    obtain ⟨final,diagnostics',ok,recovered,rest⟩ := ih distinct _ later between
    refine ⟨final,diagnostics',?_,?_,?_⟩
    · rw [foldlM_cons,fitted]
      exact ok
    · exact forall_mem_cons.mpr ⟨by rw [rest _ fresh,update_self],recovered⟩
    · intro other outside
      rw [mem_cons,not_or] at outside
      rw [rest other outside.2,update_of_ne outside.1]

theorem round3_fitModel_ok (carries : ∀ dtype, ∃ c, Carries Q dtype c) (found : ∀ dtype, ∃ params, round2 dtype = some params)
    (same : ∀ dtype, baseOf Q dtype = baseOf round2 dtype) : ∃ points, Round3.fitModel rows Q = .ok points := by
  have each : ∀ row ∈ rows, ∃ point, Round3.fitPoint Q row = .ok point ∧ True := by
    intro row inside
    obtain ⟨dtype,typed⟩ := (measured row inside).typed
    obtain ⟨c,carriesHere⟩ := carries dtype
    obtain ⟨params,foundHere⟩ := found dtype
    obtain ⟨base,terms,actual,evaluate⟩ := (measured row inside).terms typed foundHere
    simp only [Round3.fitPoint,evaluate true carriesHere (same dtype),evaluate false carriesHere (same dtype),actual,
      bind,Except.bind,pure,Except.pure]
    exact ⟨_,rfl,trivial⟩
  obtain ⟨points,ok,-⟩ := mapM_ok rows each
  exact ⟨points,ok⟩

end Stages

/-- The two-stage fit recovers the truth: with complete parameters, samples that are the model's own predictions and designs
of full column rank it returns exactly the corrections they were made with and keeps the base. -/
theorem fitModel_recovers (solver : Solver ℚ) (rows merged : List Row) (round2 : ParameterSet)
    (truth : Dtype → Corrections) (complete : ∀ dtype, ∃ c, Carries round2 dtype c)
    (aggregated : aggregate rows = .ok merged) (measured : ∀ row ∈ merged, Measured round2 truth row)
    (identifiable : ∀ dtype, Identifiable round2 truth merged dtype) :
    ∃ model, fitModel solver rows round2 = .ok model ∧ ∀ dtype, ∃ inherited fitted, round2 dtype = some inherited ∧
      model.parameters dtype = some fitted ∧ fitted.base = inherited.base ∧ fitted.nG = some (truth dtype).nG ∧
      fitted.nGU = some (truth dtype).nGU ∧ fitted.rho = some (truth dtype).rho := by
  have found : ∀ dtype, ∃ params, round2 dtype = some params := by
    intro dtype
    obtain ⟨c,params,known,-⟩ := complete dtype
    exact ⟨params,known⟩
  obtain ⟨final,diagnostics,folded,recovered,-⟩ := foldlM_recovers solver measured complete identifiable Dtype.all
    (by decide) round2 (fun _ _ => rfl) []
  have all : ∀ dtype, final dtype = specialize round2 truth dtype := fun dtype =>
    recovered dtype (by cases dtype <;> decide)
  have isFinal : final = specialize round2 truth := funext all
  obtain ⟨points,predicted⟩ := round3_fitModel_ok (Q := specialize round2 truth) measured
    (fun dtype => ⟨_,specialize_carries (found dtype).choose_spec⟩) found (fun dtype => specialize_baseOf)
  obtain ⟨old,inherited⟩ := round3_fitModel_ok measured complete found (fun dtype => rfl)
  have nonempty : ¬merged.isEmpty := by
    intro empty
    rw [List.isEmpty_iff] at empty
    rw [empty] at identifiable
    exact not_full_nil ((identifiable .int8).lower [] rfl)
  rw [isFinal] at folded
  have done : ∃ model, fitModel solver rows round2 = .ok model ∧ model.parameters = specialize round2 truth := by
    simp only [fitModel,aggregated,if_neg nonempty,folded,predicted,inherited,bind,Except.bind,pure,Except.pure]
    exact ⟨_,rfl,rfl⟩
  obtain ⟨model,ok,parameters⟩ := done
  refine ⟨model,ok,?_⟩
  intro dtype
  obtain ⟨params,known⟩ := found dtype
  have fitted : model.parameters dtype = some { params with
      nG := some (truth dtype).nG
      nGU := some (truth dtype).nGU
      rho := some (truth dtype).rho } := by
    rw [parameters]
    exact specialize_of_some known
  exact ⟨params,_,known,fitted,rfl,rfl,rfl,rfl⟩

namespace Fixture

/-- Coefficients in proportion to the element size, so that all data types take the same cycles. -/
def truth (dtype : Dtype) : Corrections :=
  let z : ℚ := dtype.size
  ⟨⟨2 / z,1 / (z * z)⟩,⟨3,1 / z,2 / z,1 / (z * z)⟩,⟨6 / 5,1 / 10,3 / 10,1 / 5⟩⟩

def prior : ParameterSet := fun _ => some {
  base := some (.flat ⟨20,100,10,200⟩)
  nG := some ⟨1,1⟩
  nGU := some ⟨1,1,1,1⟩
  rho := some ⟨1,0,0,0⟩ }

def row (dtype : Dtype) (core : Int) (shape : List Int × List Int × List Int) : Row :=
  let bare : Row := ⟨some 3,.known dtype,some core,shape.1,shape.2.1,shape.2.2,none,[],none⟩
  { bare with
    actualY := (Round3.inheritedTerms (specialize prior truth) bare true).toOption.map fun found =>
      found.1 + Round3.t1Sum found.2 }

def lowerShapes : List (List Int × List Int × List Int) :=
  [([1,1,1],[0,1,0],[0,2,0]),([1,1,2],[2,0,2],[0,1,2]),([1,2,1],[2,3,1],[2,0,1]),
    ([1,1,1],[0,0,1],[1,2,0]),([1,1,1],[3,3,0],[2,1,0]),([2,1,1],[0,0,0],[2,1,1])]

def upperShapes : List (List Int × List Int × List Int) :=
  [([1,1,1],[2,1,0],[1,1,0]),([2,1,1],[2,1,0],[2,0,0]),([1,1,1],[1,1,0],[0,2,1]),([2,1,1],[1,0,2],[2,2,2])]

def rows : List Row :=
  Dtype.all.flatMap fun dtype => lowerShapes.map (row dtype 1) ++ upperShapes.map (row dtype 8)

def lowerWeights (dtype : Dtype) : Fin 6 → List ℚ :=
  let z : ℚ := dtype.size
  ![[-2,0,0,2,0,-1 / 2].map (· / z),[1,0,0,-1,0,1 / 2].map (· / (z * z)),[3,-3,2,0,0,-1],
    [-1 / 2,1,-1,-2,2,1].map (· / z),[-1 / 2,3,-2,0,-2,1].map (· / z),[1 / 2,-1,1,1,-1,-1].map (· / (z * z))]

def upperWeights (dtype : Dtype) : Fin 4 → List ℚ :=
  let z : ℚ := dtype.size
  ![[7 / 6,-1 / 2,0,-1 / 6],[7 / 6,-1,0,1 / 12].map (· / z),[25 / 6,-7 / 2,1 / 5,1 / 6],
    [-9 / 2,7 / 2,-1 / 10,-1 / 12].map (· / z)]

theorem aggregate_rows : aggregate rows = .ok rows := by decide +kernel

theorem rows_measured : ∀ row ∈ rows, Measured prior truth row := by
  have checked : ∀ row ∈ rows, ∃ found ∈ (inheritedTerms (specialize prior truth) row true).toOption,
      actualValue row = .ok (found.1 + t1Sum found.2) := by decide +kernel
  intro row inside
  obtain ⟨⟨base,terms⟩,found,actual⟩ := checked row inside
  refine ⟨base,terms,?_,actual⟩
  cases result : inheritedTerms (specialize prior truth) row true with
  | error error => rw [result] at found; cases found
  | ok value => rw [result] at found; cases found; rfl

theorem rows_identifiable (dtype : Dtype) : Identifiable prior truth rows dtype where
  lower samples ok := by
    have checked : ∀ dtype ∈ Dtype.all, ∀ samples ∈
        (stageSamples prior (correctionFeatures dtype) (lowerRows rows dtype)).toOption,
        UnitWeights (samples.map (·.1)) (lowerWeights dtype) := by decide +kernel
    apply UnitWeights.fullColumnRank
    apply checked dtype (by cases dtype <;> decide)
    rw [ok]
    rfl
  upper samples ok := by
    have checked : ∀ dtype ∈ Dtype.all, ∀ samples ∈
        (stageSamples (specialize prior truth) (rhoFeatures dtype) (upperRows rows dtype)).toOption,
        UnitWeights (samples.map (·.1)) (upperWeights dtype) := by decide +kernel
    apply UnitWeights.fullColumnRank
    apply checked dtype (by cases dtype <;> decide)
    rw [ok]
    rfl

end Fixture

/-- On ten rows for each data type the fit replaces wrong corrections by those the rows were made with. -/
theorem fixture_recovers :
    ∃ model, fitModel normalSolver Fixture.rows Fixture.prior = .ok model ∧ ∀ dtype, ∃ inherited fitted,
      Fixture.prior dtype = some inherited ∧ model.parameters dtype = some fitted ∧ fitted.base = inherited.base ∧
      fitted.nG = some (Fixture.truth dtype).nG ∧ fitted.nGU = some (Fixture.truth dtype).nGU ∧
      fitted.rho = some (Fixture.truth dtype).rho :=
  fitModel_recovers normalSolver Fixture.rows Fixture.rows Fixture.prior Fixture.truth
    (fun _ => ⟨⟨⟨1,1⟩,⟨1,1,1,1⟩,⟨1,0,0,0⟩⟩,_,rfl,rfl,rfl,rfl⟩) Fixture.aggregate_rows Fixture.rows_measured
    Fixture.rows_identifiable

end GraphEngine.Nddma.Round5
