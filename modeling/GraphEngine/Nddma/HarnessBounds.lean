import GraphEngine.Lib.Outcome
import GraphEngine.Nddma.Harness

/-! Which plan rows the harness runs within its buffers. `Safe` is what is wanted of a run, `Fits` the exact
condition on the accepted row. -/
namespace GraphEngine.Nddma.Harness

open Lib Lib.StridedBox List
open Option (bind_eq_some_iff)

def exactBase (exp : Experiment) (span core : Nat) : Nat :=
  if fixedTotalSplit exp.tiling then logicalStart exp.tiling core else core * (max exp.totalElems span + 64)

structure Safe (exp : Experiment) : Prop where
  reads_inside : ∀ core < exp.blockDim, ∀ x ∈ reads exp.tiling core,
    0 ≤ x ∧ (x + 1) * dtypeSize exp.tiling.dtype ≤ srcBytes exp
  writes_inside : ∀ core < exp.blockDim, ∀ x ∈ writes exp.tiling core,
    0 ≤ x ∧ (x + 1) * dtypeSize exp.tiling.dtype ≤ exp.tiling.ubBufferBytes
  hostIndices_lt : ∀ i ∈ hostIndices exp, i < kMaxDim
  deviceIndices_lt : ∀ core < exp.blockDim, ∀ i ∈ deviceIndices exp.tiling core, i < kMaxDim
  apart : ∀ core < exp.blockDim, ∀ core' < exp.blockDim, core < core' →
    ∀ x ∈ reads exp.tiling core, x ∉ reads exp.tiling core'
  exact : ∀ core < exp.blockDim, ∀ share ∈ coreShare exp.tiling core,
    share.srcCoreBase = exactBase exp exp.gmSpanElems core ∧ share.dstCoreBase = exactBase exp exp.ubSpanElems core

def TrueSpans (row : PlanRow) (exp : Experiment) : Prop :=
  ∃ dims outputStride inputStride, checkLists row exp.tiling.dim = some (dims,outputStride,inputStride) ∧
    (exp.gmSpanElems : Int) = span (dims.zip inputStride) ∧ (exp.ubSpanElems : Int) = span (dims.zip outputStride)

def inputAxes (t : TilingData) (split : Nat) : List Axis := (copyDims t split).zip (t.inputStride.take t.dim)

def outputAxes (t : TilingData) (split : Nat) : List Axis := (copyDims t split).zip (t.outputStride.take t.dim)

def splitElems (t : TilingData) (core : Nat) : Nat := logicalStart t (core + 1) - logicalStart t core

def Splits (exp : Experiment) : Prop := fixedTotalSplit exp.tiling ∧ 1 < exp.blockDim

instance (exp : Experiment) : Decidable (Splits exp) := inferInstanceAs (Decidable (_ ∧ _))

def SrcFits (exp : Experiment) (base split : Nat) : Prop :=
  Positive (inputAxes exp.tiling split) →
    0 ≤ (base : Int) + exp.tiling.srcOffsetElem + low (inputAxes exp.tiling split) ∧
      ((base : Int) + exp.tiling.srcOffsetElem + high (inputAxes exp.tiling split) + 1) * dtypeSize exp.tiling.dtype
        ≤ srcBytes exp

def DstFits (exp : Experiment) (split : Nat) : Prop :=
  Positive (outputAxes exp.tiling split) →
    0 ≤ (exp.tiling.dstOffsetElem : Int) + low (outputAxes exp.tiling split) ∧
      ((exp.tiling.dstOffsetElem : Int) + high (outputAxes exp.tiling split) + 1) * dtypeSize exp.tiling.dtype
        ≤ exp.tiling.ubBufferBytes

theorem dtypeSize_pos (dtype : Dtype) : (0 : Int) < dtypeSize dtype := by
  cases dtype <;> decide

theorem bytes_iff {axes : List Axis} {base size limit : Int} (positive : 0 < size) :
    (∀ x ∈ offsets axes, 0 ≤ base + x ∧ (base + x + 1) * size ≤ limit) ↔
      (Positive axes → 0 ≤ base + low axes ∧ (base + high axes + 1) * size ≤ limit) := by
  constructor
  · intro all nonempty
    exact ⟨(all _ (ends_mem nonempty).1).1,(all _ (ends_mem nonempty).2).2⟩
  · intro ends x inside
    obtain ⟨nonempty,above,below⟩ := bounds inside
    obtain ⟨first,last⟩ := ends nonempty
    refine ⟨by omega,le_trans ?_ last⟩
    exact mul_le_mul_of_nonneg_right (by omega) positive.le

section Copies
variable {t : TilingData} {core : Nat} {x : Int} (axes : Share → List Axis) (base : Share → Int)

/-- The form that both lists of elements have. -/
def copied (t : TilingData) (core : Nat) : List Int :=
  match coreShare t core with
  | none => []
  | some share => (List.range (copyRepeats t)).flatMap fun _ => (offsets (axes share)).map fun offset => base share + offset

theorem mem_copied : x ∈ copied axes base t core ↔ 0 < copyRepeats t ∧ ∃ share ∈ coreShare t core,
    ∃ offset ∈ offsets (axes share), x = base share + offset := by
  unfold copied
  cases coreShare t core with
  | none => simp
  | some share =>
    simp only [mem_flatMap,mem_range,mem_map,Option.mem_def,Option.some.injEq,exists_eq_left']
    constructor
    · rintro ⟨i,small,offset,inside,rfl⟩
      exact ⟨by omega,offset,inside,rfl⟩
    · rintro ⟨some_,offset,inside,rfl⟩
      exact ⟨0,some_,offset,inside,rfl⟩

theorem copied_inside_iff {size limit : Int} (positive : 0 < size) :
    (∀ x ∈ copied axes base t core, 0 ≤ x ∧ (x + 1) * size ≤ limit) ↔
      (0 < copyRepeats t → ∀ share ∈ coreShare t core, Positive (axes share) →
        0 ≤ base share + low (axes share) ∧ (base share + high (axes share) + 1) * size ≤ limit) := by
  constructor
  · intro all copies share shared
    apply (bytes_iff positive).mp
    intro offset inside
    exact all _ ((mem_copied axes base).mpr ⟨copies,share,shared,offset,inside,rfl⟩)
  · intro fits x inside
    obtain ⟨copies,share,shared,offset,inBox,rfl⟩ := (mem_copied axes base).mp inside
    exact (bytes_iff positive).mpr (fits copies share shared) offset inBox

theorem mem_reads : x ∈ reads t core ↔ 0 < copyRepeats t ∧ ∃ share ∈ coreShare t core,
    ∃ offset ∈ offsets (inputAxes t share.splitElems), x = (share.srcCoreBase : Int) + t.srcOffsetElem + offset :=
  mem_copied (fun share => inputAxes t share.splitElems) fun share => share.srcCoreBase + t.srcOffsetElem

end Copies

/-- What `BuildExperiment` guarantees of what it accepts. -/
structure Accepted (row : PlanRow) (exp : Experiment) : Prop where
  blockDim_pos : 0 < exp.blockDim
  blockDim_lt : exp.blockDim < twoPow32
  blockDim_eq : exp.tiling.blockDim = exp.blockDim
  totalElems_eq : exp.tiling.totalElems = exp.totalElems
  srcOffset_lt : exp.tiling.srcOffsetElem < twoPow32
  srcStride_eq : exp.tiling.srcCoreStrideElems = toUInt32 (max exp.totalElems exp.gmSpanElems + 64)
  dstStride_eq : exp.tiling.dstCoreStrideElems = toUInt32 (max exp.totalElems exp.ubSpanElems + 64)
  oneDim : Splits exp → exp.tiling.dim = 1
  arrays : ∃ dims outputStride inputStride, checkLists row exp.tiling.dim = some (dims,outputStride,inputStride) ∧
    exp.tiling.outputDims = fillArray dims ∧ exp.tiling.outputStride = fillArray outputStride ∧
    exp.tiling.inputStride = fillArray inputStride

theorem toUInt32_lt (value : Nat) : toUInt32 value < twoPow32 := Nat.mod_lt _ (by decide)

theorem buildExperiment_accepted {row : PlanRow} {exp : Experiment} (ok : buildExperiment row = some exp) :
    Accepted row exp := by
  unfold buildExperiment at ok
  obtain ⟨repeats,-,ok⟩ := bind_eq_some_iff.mp ok
  obtain ⟨blockDim,parsed,ok⟩ := bind_eq_some_iff.mp ok
  obtain ⟨nonzero,ok⟩ := guard_some ok
  obtain ⟨dim,-,ok⟩ := bind_eq_some_iff.mp ok
  obtain ⟨copies,-,ok⟩ := bind_eq_some_iff.mp ok
  obtain ⟨store,-,ok⟩ := bind_eq_some_iff.mp ok
  obtain ⟨srcOffset,parsedSrc,ok⟩ := bind_eq_some_iff.mp ok
  obtain ⟨dstOffset,-,ok⟩ := bind_eq_some_iff.mp ok
  obtain ⟨gmSpan,-,ok⟩ := bind_eq_some_iff.mp ok
  obtain ⟨ubSpan,-,ok⟩ := bind_eq_some_iff.mp ok
  obtain ⟨-,ok⟩ := guard_some ok
  obtain ⟨⟨total,logical⟩,totals,ok⟩ := bind_eq_some_iff.mp ok
  obtain ⟨⟨dims,outputStride,inputStride⟩,lists,ok⟩ := bind_eq_some_iff.mp ok
  cases ok
  obtain ⟨raw,-,rfl⟩ := Option.map_eq_some_iff.mp parsed
  obtain ⟨rawSrc,-,rfl⟩ := Option.map_eq_some_iff.mp parsedSrc
  refine ⟨Nat.pos_of_ne_zero nonzero,toUInt32_lt _,rfl,rfl,toUInt32_lt _,rfl,rfl,?_,dims,outputStride,inputStride,
    lists,rfl,rfl,rfl⟩
  rintro ⟨fixed,many⟩
  obtain ⟨total',-,totals⟩ := bind_eq_some_iff.mp totals
  obtain ⟨-,totals⟩ := guard_some totals
  obtain ⟨bytes,-,totals⟩ := bind_eq_some_iff.mp totals
  obtain ⟨-,totals⟩ := guard_some totals
  obtain ⟨-,totals⟩ := guard_some totals
  obtain ⟨flat,totals⟩ := guard_some totals
  cases totals
  by_contra other
  exact flat ⟨of_decide_eq_true fixed,many,other⟩

section Shares
variable {exp : Experiment} {core : Nat}

theorem reads_inside_iff : (∀ x ∈ reads exp.tiling core, 0 ≤ x ∧ (x + 1) * dtypeSize exp.tiling.dtype ≤ srcBytes exp) ↔
      (0 < copyRepeats exp.tiling → ∀ share ∈ coreShare exp.tiling core,
        SrcFits exp share.srcCoreBase share.splitElems) :=
  copied_inside_iff (fun share => inputAxes exp.tiling share.splitElems)
    (fun share => share.srcCoreBase + exp.tiling.srcOffsetElem) (dtypeSize_pos _)

theorem writes_inside_iff :
    (∀ x ∈ writes exp.tiling core, 0 ≤ x ∧ (x + 1) * dtypeSize exp.tiling.dtype ≤ exp.tiling.ubBufferBytes) ↔
      (0 < copyRepeats exp.tiling → ∀ share ∈ coreShare exp.tiling core, DstFits exp share.splitElems) :=
  copied_inside_iff (fun share => outputAxes exp.tiling share.splitElems) (fun _ => exp.tiling.dstOffsetElem) (dtypeSize_pos _)

variable {row : PlanRow} (accepted : Accepted row exp) {share : Share}
include accepted

theorem coreShare_splits (splits : Splits exp) (small : core < exp.blockDim) :
    share ∈ coreShare exp.tiling core ↔ splitElems exp.tiling core ≠ 0 ∧ share =
      ⟨logicalStart exp.tiling core,splitElems exp.tiling core,logicalStart exp.tiling core,logicalStart exp.tiling core⟩ := by
  have within : ¬core ≥ exp.tiling.blockDim := by rw [accepted.blockDim_eq]; omega
  have mode : fixedTotalSplit exp.tiling ∧ exp.tiling.blockDim > 1 := by rw [accepted.blockDim_eq]; exact splits
  unfold coreShare
  rw [if_neg within,if_pos mode]
  change share ∈ (if splitElems exp.tiling core = 0 then none else _) ↔ _
  by_cases empty : splitElems exp.tiling core = 0
  · rw [if_pos empty]
    exact ⟨fun none => absurd none (Option.not_mem_none _),fun full => absurd empty full.1⟩
  · rw [if_neg empty,Option.mem_def,Option.some.injEq]
    exact ⟨fun same => ⟨empty,same.symm⟩,fun same => same.2.symm⟩

theorem coreShare_whole (whole : ¬Splits exp) (small : core < exp.blockDim) : (∃ share, coreShare exp.tiling core = some share) ∧
    ∀ {share}, share ∈ coreShare exp.tiling core → share.splitElems = 0 ∧
      share.srcCoreBase = toUInt32 (core * exp.tiling.srcCoreStrideElems) ∧
      share.dstCoreBase = toUInt32 (core * exp.tiling.dstCoreStrideElems) ∧ (fixedTotalSplit exp.tiling → core = 0) := by
  have within : ¬core ≥ exp.tiling.blockDim := by rw [accepted.blockDim_eq]; omega
  have mode : ¬(fixedTotalSplit exp.tiling ∧ exp.tiling.blockDim > 1) := by rw [accepted.blockDim_eq]; exact whole
  have one (fixed : fixedTotalSplit exp.tiling = true) : ¬exp.tiling.blockDim > 1 := fun many => mode ⟨fixed,many⟩
  have first (fixed : fixedTotalSplit exp.tiling = true) : core = 0 := by
    have := one fixed
    omega
  unfold coreShare
  rw [if_neg within,if_neg mode]
  refine ⟨⟨_,rfl⟩,?_⟩
  rintro share ⟨⟩
  by_cases fixed : fixedTotalSplit exp.tiling = true
  · simp [fixed,one fixed,first fixed,toUInt32]
  · simp [fixed]

end Shares

/-- The exact condition on an accepted row. Without a split the strides between the cores must not wrap around and the shape
must stay within one core's part; with a split each share must fit and no two may meet. -/
structure Fits (exp : Experiment) : Prop where
  dim_le : exp.tiling.dim ≤ kMaxDim
  dim_pos : exp.tiling.dim = 0 → exp.tiling.enableStore = 0
  bases : ¬fixedTotalSplit exp.tiling →
    (exp.blockDim - 1) * (max exp.totalElems exp.gmSpanElems + 64) < twoPow32 ∧
      (exp.blockDim - 1) * (max exp.totalElems exp.ubSpanElems + 64) < twoPow32
  whole : ¬Splits exp → 0 < copyRepeats exp.tiling →
    (Positive (inputAxes exp.tiling 0) → 0 ≤ (exp.tiling.srcOffsetElem : Int) + low (inputAxes exp.tiling 0) ∧
      high (inputAxes exp.tiling 0) < exp.tiling.srcCoreStrideElems) ∧ DstFits exp 0
  shares : Splits exp → 0 < copyRepeats exp.tiling → ∀ core < exp.blockDim, splitElems exp.tiling core ≠ 0 →
    SrcFits exp (logicalStart exp.tiling core) (splitElems exp.tiling core) ∧ DstFits exp (splitElems exp.tiling core)
  sharesApart : Splits exp → 0 < copyRepeats exp.tiling → ∀ core core', core < core' → core' < exp.blockDim →
    splitElems exp.tiling core ≠ 0 → splitElems exp.tiling core' ≠ 0 →
    ∀ stride distance : Int, stride = exp.tiling.inputStride.getD 0 1 →
      distance = (logicalStart exp.tiling core' : Int) - logicalStart exp.tiling core →
      ¬(stride ∣ distance ∧ (0 < stride ∧ distance < stride * splitElems exp.tiling core ∨
        stride < 0 ∧ distance < -stride * splitElems exp.tiling core'))

section Wrap
variable {cores span : Nat}

theorem exact_of_last {core : Nat} (last : (cores - 1) * span < twoPow32) (small : core < cores) :
    core * toUInt32 span = core * span ∧ core * span < twoPow32 := by
  have bound : core * span < twoPow32 := lt_of_le_of_lt (Nat.mul_le_mul_right _ (by omega)) last
  refine ⟨?_,bound⟩
  rcases Nat.eq_zero_or_pos core with rfl | later
  · rw [zero_mul,zero_mul]
  · have fits : toUInt32 span = span := Nat.mod_eq_of_lt (lt_of_le_of_lt (Nat.le_mul_of_pos_left _ later) bound)
    rw [fits]

theorem exact_iff (positive : 0 < cores) :
    (∀ core < cores, toUInt32 (core * toUInt32 span) = core * span) ↔ (cores - 1) * span < twoPow32 := by
  constructor
  · intro all
    rw [← all (cores - 1) (by omega)]
    exact toUInt32_lt _
  · intro last core small
    obtain ⟨same,bound⟩ := exact_of_last last small
    rw [same]
    exact Nat.mod_eq_of_lt bound

theorem bufferSize_lt (positive : 0 < cores) (last : (cores - 1) * span < twoPow32) :
    toUInt32 span * cores < 2 * twoPow32 := by
  obtain ⟨same,bound⟩ := exact_of_last last (Nat.sub_one_lt positive.ne')
  obtain ⟨before,rfl⟩ := Nat.exists_eq_add_one.mpr positive
  rw [Nat.add_sub_cancel] at same bound
  have := toUInt32_lt span
  rw [mul_add,mul_one,mul_comm,same]
  omega

end Wrap

section Parts
variable {row : PlanRow} {exp : Experiment}

theorem hostIndices_iff : (∀ i ∈ hostIndices exp, i < kMaxDim) ↔ exp.tiling.dim ≤ kMaxDim := by
  simp only [hostIndices,mem_append,mem_range]
  constructor
  · intro all
    by_contra more
    exact absurd (all kMaxDim (Or.inr (by omega))) (lt_irrefl _)
  · intro few i inside
    omega

section

variable (accepted : Accepted row exp)
include accepted

theorem deviceIndices_iff (few : exp.tiling.dim ≤ kMaxDim) :
    (∀ core < exp.blockDim, ∀ i ∈ deviceIndices exp.tiling core, i < kMaxDim) ↔
      (exp.tiling.dim = 0 → exp.tiling.enableStore = 0) := by
  constructor
  · intro all none
    by_contra stores
    have whole : ¬Splits exp := fun splits => absurd (accepted.oneDim splits) (by omega)
    obtain ⟨⟨share,shared⟩,facts⟩ := coreShare_whole accepted whole accepted.blockDim_pos
    have there : twoPow32 - 1 ∈ deviceIndices exp.tiling 0 := by
      unfold deviceIndices
      rw [shared]
      simp [stores,(facts shared).1,none]
    exact absurd (all 0 accepted.blockDim_pos _ there) (by decide)
  · intro quiet core small i inside
    unfold deviceIndices at inside
    cases shared : coreShare exp.tiling core with
    | none => rw [shared] at inside; cases inside
    | some share =>
      rw [shared] at inside
      rcases mem_append.mp inside with copied | stored
      · split at copied
        · rw [mem_range] at copied
          omega
        · cases copied
      · split at stored
        case isFalse => cases stored
        case isTrue stores =>
        rw [mem_singleton] at stored
        by_cases none : exp.tiling.dim = 0
        · exact absurd (quiet none) stores.1
        · rw [if_neg none] at stored
          have : 0 < kMaxDim := by decide
          omega

theorem exact_iff_bases : (∀ core < exp.blockDim, ∀ share ∈ coreShare exp.tiling core,
      share.srcCoreBase = exactBase exp exp.gmSpanElems core ∧
        share.dstCoreBase = exactBase exp exp.ubSpanElems core) ↔ (¬fixedTotalSplit exp.tiling →
      (exp.blockDim - 1) * (max exp.totalElems exp.gmSpanElems + 64) < twoPow32 ∧
        (exp.blockDim - 1) * (max exp.totalElems exp.ubSpanElems + 64) < twoPow32) := by
  by_cases fixed : fixedTotalSplit exp.tiling = true
  · refine iff_of_true ?_ (fun free => absurd fixed free)
    intro core small share shared
    simp only [exactBase,fixed,if_true]
    by_cases splits : Splits exp
    · obtain ⟨-,rfl⟩ := (coreShare_splits accepted splits small).mp shared
      exact ⟨rfl,rfl⟩
    · obtain ⟨-,src,dst,first⟩ := (coreShare_whole accepted splits small).2 shared
      rw [src,dst,first fixed,zero_mul,zero_mul]
      simp [logicalStart,toUInt32]
  · have whole : ¬Splits exp := fun splits => fixed splits.1
    rw [← exact_iff accepted.blockDim_pos,← exact_iff accepted.blockDim_pos]
    simp only [exactBase,fixed,if_false,Bool.false_eq_true,not_false_eq_true,forall_const]
    constructor
    · intro all
      refine ⟨fun core small => ?_,fun core small => ?_⟩
      all_goals
        obtain ⟨⟨share,isShare⟩,facts⟩ := coreShare_whole accepted whole small
        obtain ⟨srcIs,dstIs⟩ := all core small share isShare
        obtain ⟨-,src,dst,-⟩ := facts isShare
      · rw [← accepted.srcStride_eq,← src,srcIs]
      · rw [← accepted.dstStride_eq,← dst,dstIs]
    · rintro ⟨srcAll,dstAll⟩ core small share shared
      obtain ⟨-,src,dst,-⟩ := (coreShare_whole accepted whole small).2 shared
      rw [src,dst,accepted.srcStride_eq,accepted.dstStride_eq]
      exact ⟨srcAll core small,dstAll core small⟩

theorem whole_writes_iff (whole : ¬Splits exp) :
    (∀ core < exp.blockDim, ∀ share ∈ coreShare exp.tiling core, DstFits exp share.splitElems) ↔ DstFits exp 0 := by
  constructor
  · intro all
    obtain ⟨⟨first,isFirst⟩,facts⟩ := coreShare_whole accepted whole accepted.blockDim_pos
    rw [← (facts isFirst).1]
    exact all 0 accepted.blockDim_pos first isFirst
  · intro inside core small share shared
    rw [((coreShare_whole accepted whole small).2 shared).1]
    exact inside

section Whole

variable (whole : ¬Splits exp) (bases : ¬fixedTotalSplit exp.tiling →
    (exp.blockDim - 1) * (max exp.totalElems exp.gmSpanElems + 64) < twoPow32)
include whole bases

theorem whole_base :
    (∀ core < exp.blockDim, toUInt32 (core * exp.tiling.srcCoreStrideElems) = core * exp.tiling.srcCoreStrideElems) ∧
      srcBytes exp = (exp.tiling.srcOffsetElem + exp.tiling.srcCoreStrideElems * exp.blockDim)
        * dtypeSize exp.tiling.dtype := by
  have last : (exp.blockDim - 1) * (max exp.totalElems exp.gmSpanElems + 64) < twoPow32 := by
    by_cases fixed : fixedTotalSplit exp.tiling = true
    · have one : exp.blockDim - 1 = 0 := by
        have := accepted.blockDim_pos
        have few : ¬1 < exp.blockDim := fun many => whole ⟨fixed,many⟩
        omega
      rw [one,zero_mul]
      decide
    · exact bases fixed
  have size := bufferSize_lt accepted.blockDim_pos last
  rw [← accepted.srcStride_eq] at size
  refine ⟨?_,?_⟩
  · intro core small
    obtain ⟨same,bound⟩ := exact_of_last last small
    rw [accepted.srcStride_eq,same]
    exact Nat.mod_eq_of_lt bound
  · unfold srcBytes
    have one : max 1 exp.blockDim = exp.blockDim := max_eq_right accepted.blockDim_pos
    rw [one]
    apply Nat.mod_eq_of_lt
    have offset := accepted.srcOffset_lt
    have bytes : dtypeSize exp.tiling.dtype ≤ 8 := by cases exp.tiling.dtype <;> decide
    calc (exp.tiling.srcOffsetElem + exp.tiling.srcCoreStrideElems * exp.blockDim) * dtypeSize exp.tiling.dtype
        ≤ (exp.tiling.srcOffsetElem + exp.tiling.srcCoreStrideElems * exp.blockDim) * 8 := Nat.mul_le_mul_left _ bytes
      _ < twoPow64 := by unfold twoPow32 at offset size; unfold twoPow64; omega

theorem whole_reads_iff :
    (∀ core < exp.blockDim, ∀ share ∈ coreShare exp.tiling core, SrcFits exp share.srcCoreBase share.splitElems) ↔
      (Positive (inputAxes exp.tiling 0) → 0 ≤ (exp.tiling.srcOffsetElem : Int) + low (inputAxes exp.tiling 0) ∧
        high (inputAxes exp.tiling 0) < exp.tiling.srcCoreStrideElems) := by
  obtain ⟨base,bytes⟩ := whole_base accepted whole bases
  have positive := dtypeSize_pos exp.tiling.dtype
  have cores := accepted.blockDim_pos
  have limit : (srcBytes exp : Int) = ((exp.tiling.srcOffsetElem : Int) +
      exp.tiling.srcCoreStrideElems * exp.blockDim) * dtypeSize exp.tiling.dtype := by
    rw [bytes]
    push_cast
    rfl
  unfold SrcFits
  rw [limit]
  constructor
  · intro all nonempty
    obtain ⟨⟨first,isFirst⟩,facts⟩ := coreShare_whole accepted whole cores
    obtain ⟨unsplit,src,-,-⟩ := facts isFirst
    have atFirst := all 0 cores first isFirst
    rw [unsplit,src,base 0 cores,zero_mul] at atFirst
    obtain ⟨⟨last,isLast⟩,facts⟩ := coreShare_whole accepted whole (by omega : exp.blockDim - 1 < exp.blockDim)
    obtain ⟨unsplit,src,-,-⟩ := facts isLast
    have atLast := all (exp.blockDim - 1) (by omega) last isLast
    rw [unsplit,src,base (exp.blockDim - 1) (by omega)] at atLast
    refine ⟨by simpa using (atFirst nonempty).1,?_⟩
    have upper := le_of_mul_le_mul_right (atLast nonempty).2 positive
    obtain ⟨before,eq⟩ := Nat.exists_eq_add_one.mpr cores
    rw [eq,Nat.add_sub_cancel] at upper
    push_cast at upper
    rw [mul_add,mul_one,mul_comm (before : Int)] at upper
    omega
  · intro inside core small share shared nonempty
    obtain ⟨unsplit,src,-,-⟩ := (coreShare_whole accepted whole small).2 shared
    rw [unsplit] at nonempty ⊢
    rw [src,base core small]
    obtain ⟨lower,upper⟩ := inside nonempty
    have reach : ((core : Int) + 1) * exp.tiling.srcCoreStrideElems ≤ exp.blockDim * exp.tiling.srcCoreStrideElems :=
      mul_le_mul_of_nonneg_right (by omega) (by omega)
    have start : (0 : Int) ≤ (core : Int) * exp.tiling.srcCoreStrideElems := by positivity
    push_cast
    refine ⟨by omega,mul_le_mul_of_nonneg_right ?_ positive.le⟩
    rw [add_mul,one_mul,mul_comm (exp.blockDim : Int)] at reach
    omega

theorem whole_apart (spans : TrueSpans row exp) (few : exp.tiling.dim ≤ kMaxDim)
    {core core' : Nat} (less : core < core') (small' : core' < exp.blockDim) {x : Int}
    (inside : x ∈ reads exp.tiling core) : x ∉ reads exp.tiling core' := by
  intro inside'
  obtain ⟨base,-⟩ := whole_base accepted whole bases
  obtain ⟨-,share,shared,offset,inBox,rfl⟩ := mem_reads.mp inside
  obtain ⟨-,share',shared',offset',inBox',same⟩ := mem_reads.mp inside'
  obtain ⟨unsplit,src,-,-⟩ := (coreShare_whole accepted whole (by omega)).2 shared
  obtain ⟨unsplit',src',-,-⟩ := (coreShare_whole accepted whole small').2 shared'
  rw [unsplit] at inBox
  rw [unsplit'] at inBox'
  rw [src,src',base core (by omega),base core' small'] at same
  -- several cores and no split, so the stride is exact and holds the span
  have free : ¬fixedTotalSplit exp.tiling := fun fixed => whole ⟨fixed,by omega⟩
  have strideExact : exp.tiling.srcCoreStrideElems = max exp.totalElems exp.gmSpanElems + 64 := by
    have one := (exact_of_last (bases free) (by omega : 1 < exp.blockDim)).1
    rwa [one_mul,one_mul,← accepted.srcStride_eq] at one
  have spanIs : (exp.gmSpanElems : Int) = span (inputAxes exp.tiling 0) := by
    obtain ⟨dims,outputStride,inputStride,lists,gm,-⟩ := spans
    obtain ⟨dims',outputStride',inputStride',lists',dimsIs,-,inputIs⟩ := accepted.arrays
    rw [lists] at lists'
    cases lists'
    have lengths : dims.length = exp.tiling.dim ∧ inputStride.length = exp.tiling.dim := by
      obtain ⟨_,-,lists⟩ := bind_eq_some_iff.mp lists
      obtain ⟨_,-,lists⟩ := bind_eq_some_iff.mp lists
      obtain ⟨_,-,lists⟩ := bind_eq_some_iff.mp lists
      obtain ⟨lengths,lists⟩ := guard_some lists
      cases lists
      exact ⟨lengths.1,lengths.2.2⟩
    have back : ∀ values : List Int, values.length = exp.tiling.dim →
        (fillArray values).take exp.tiling.dim = values := by
      intro values length
      unfold fillArray
      rw [take_take,min_eq_left few,← length,take_left]
    rw [gm]
    simp only [inputAxes,copyDims,ne_eq,not_true,if_false,dimsIs,inputIs,back dims lengths.1,
      back inputStride lengths.2]
  have distant : (core : Int) * exp.tiling.srcCoreStrideElems + exp.tiling.srcOffsetElem +
      span (inputAxes exp.tiling 0) ≤ core' * exp.tiling.srcCoreStrideElems + exp.tiling.srcOffsetElem := by
    have next : ((core : Int) + 1) * exp.tiling.srcCoreStrideElems ≤ core' * exp.tiling.srcCoreStrideElems :=
      mul_le_mul_of_nonneg_right (by omega) (by omega)
    rw [← spanIs]
    rw [add_mul,one_mul] at next
    have : (exp.gmSpanElems : Int) ≤ exp.tiling.srcCoreStrideElems := by
      rw [strideExact]
      omega
    omega
  push_cast at same
  exact apart inBox inBox' distant same

end Whole

theorem split_axes (splits : Splits exp) {split : Nat} (some_ : split ≠ 0) :
    inputAxes exp.tiling split = [((split : Int),exp.tiling.inputStride.getD 0 1)] := by
  have one := accepted.oneDim splits
  obtain ⟨dims,outputStride,inputStride,-,dimsIs,-,inputIs⟩ := accepted.arrays
  have firstOf : ∀ values : List Int, (fillArray values).take 1 = [(fillArray values).getD 0 1] := by
    intro values
    cases values with
    | nil => rfl
    | cons value values => rfl
  have dimsOne := firstOf dims
  have inputOne := firstOf inputStride
  rw [← dimsIs] at dimsOne
  rw [← inputIs] at inputOne
  simp only [inputAxes,copyDims,one,dimsOne,inputOne,if_pos some_]
  rfl

end

theorem logicalStart_lt {t : TilingData} {core core' : Nat} (less : core < core') (some_ : splitElems t core ≠ 0) :
    logicalStart t core + splitElems t core ≤ logicalStart t core' := by
  have next : logicalStart t (core + 1) ≤ logicalStart t core' :=
    Nat.div_le_div_right (Nat.mul_le_mul_left _ less)
  unfold splitElems at some_ ⊢
  omega

theorem split_apart_iff (accepted : Accepted row exp) (splits : Splits exp) (copies : 0 < copyRepeats exp.tiling)
    {core core' : Nat} (less : core < core') (small' : core' < exp.blockDim) :
    (∀ x ∈ reads exp.tiling core, x ∉ reads exp.tiling core') ↔
      (splitElems exp.tiling core ≠ 0 → splitElems exp.tiling core' ≠ 0 →
        ∀ stride distance : Int, stride = exp.tiling.inputStride.getD 0 1 →
          distance = (logicalStart exp.tiling core' : Int) - logicalStart exp.tiling core →
          ¬(stride ∣ distance ∧ (0 < stride ∧ distance < stride * splitElems exp.tiling core ∨
            stride < 0 ∧ distance < -stride * splitElems exp.tiling core'))) := by
  have small : core < exp.blockDim := less.trans small'
  constructor
  · rintro never some_ some_' stride distance rfl rfl
    have ahead := logicalStart_lt less some_
    refine (single_apart_iff (by omega) (by omega) (by omega)).mp ?_
    intro x inside y inside' same
    rw [← split_axes accepted splits some_] at inside
    rw [← split_axes accepted splits some_'] at inside'
    have shared := (coreShare_splits accepted splits small).mpr ⟨some_,rfl⟩
    have shared' := (coreShare_splits accepted splits small').mpr ⟨some_',rfl⟩
    refine never _ (mem_reads.mpr ⟨copies,_,shared,x,inside,rfl⟩) (mem_reads.mpr ⟨copies,_,shared',y,inside',?_⟩)
    dsimp only
    omega
  · intro none z inside inside'
    obtain ⟨-,share,shared,x,inBox,rfl⟩ := mem_reads.mp inside
    obtain ⟨-,share',shared',y,inBox',same⟩ := mem_reads.mp inside'
    obtain ⟨some_,rfl⟩ := (coreShare_splits accepted splits small).mp shared
    obtain ⟨some_',rfl⟩ := (coreShare_splits accepted splits small').mp shared'
    rw [split_axes accepted splits some_] at inBox
    rw [split_axes accepted splits some_'] at inBox'
    have ahead := logicalStart_lt less some_
    refine (single_apart_iff (by omega) (by omega) (by omega)).mpr (none some_ some_' _ _ rfl rfl) x inBox y inBox' ?_
    dsimp only at same
    omega

end Parts

/-- The harness keeps within its buffers on an accepted row with true spans exactly if the row fits: the host checks neither
the number of dimensions, nor what it stores in 32 bits, nor the shares of a split. -/
theorem safe_iff_fits (row : PlanRow) (exp : Experiment) (built : buildExperiment row = some exp)
    (spans : TrueSpans row exp) : Safe exp ↔ Fits exp := by
  have accepted := buildExperiment_accepted built
  constructor
  · intro safe
    have few := hostIndices_iff.mp safe.hostIndices_lt
    have bases := (exact_iff_bases accepted).mp safe.exact
    have srcBases := fun free => (bases free).1
    have srcFits := fun copies core small => reads_inside_iff.mp (safe.reads_inside core small) copies
    have dstFits := fun copies core small => writes_inside_iff.mp (safe.writes_inside core small) copies
    refine ⟨few,(deviceIndices_iff accepted few).mp safe.deviceIndices_lt,bases,?_,?_,?_⟩
    · intro whole copies
      exact ⟨(whole_reads_iff accepted whole srcBases).mp (srcFits copies),
        (whole_writes_iff accepted whole).mp (dstFits copies)⟩
    · intro splits copies core small some_
      have shared := (coreShare_splits accepted splits small).mpr ⟨some_,rfl⟩
      exact ⟨srcFits copies core small _ shared,dstFits copies core small _ shared⟩
    · intro splits copies core core' less small'
      exact (split_apart_iff accepted splits copies less small').mp
        (safe.apart core (less.trans small') core' small' less)
  · intro fits
    have srcBases := fun free => (fits.bases free).1
    refine ⟨?_,?_,hostIndices_iff.mpr fits.dim_le,(deviceIndices_iff accepted fits.dim_le).mpr fits.dim_pos,?_,
      (exact_iff_bases accepted).mpr fits.bases⟩
    · intro core small
      apply reads_inside_iff.mpr
      intro copies share shared
      by_cases splits : Splits exp
      · obtain ⟨some_,rfl⟩ := (coreShare_splits accepted splits small).mp shared
        exact (fits.shares splits copies core small some_).1
      · exact (whole_reads_iff accepted splits srcBases).mpr (fits.whole splits copies).1 core small share shared
    · intro core small
      apply writes_inside_iff.mpr
      intro copies share shared
      by_cases splits : Splits exp
      · obtain ⟨some_,rfl⟩ := (coreShare_splits accepted splits small).mp shared
        exact (fits.shares splits copies core small some_).2
      · exact (whole_writes_iff accepted splits).mpr (fits.whole splits copies).2 core small share shared
    · intro core small core' small' less x inside
      by_cases splits : Splits exp
      · have copies := (mem_reads.mp inside).1
        exact (split_apart_iff accepted splits copies less small').mpr
          (fits.sharesApart splits copies core core' less small') x inside
      · exact whole_apart accepted splits srcBases spans fits.dim_le less small' inside

def plainRow : PlanRow := {
  blockDim := some "2"
  dtype := .int16
  dim := "2"
  repeat_ := "3"
  outputDims := "4x8"
  outputStride := "8x1"
  inputStride := "10x1"
  srcOffsetElem := "5"
  dstOffsetElem := "0"
  enableStore := "1"
  totalElems := "32"
  gmSpanElems := "38"
  ubSpanElems := "32" }

def sixDims : PlanRow := { plainRow with
  blockDim := none
  dim := "6"
  outputDims := "1x1x1x1x1x1"
  outputStride := "1x1x1x1x1x1"
  inputStride := "1x1x1x1x1x1"
  totalElems := "1"
  gmSpanElems := "1"
  ubSpanElems := "1" }

def stridedSplit : PlanRow := { plainRow with
  dim := "1"
  outputDims := "4"
  outputStride := "1"
  inputStride := "2"
  totalElems := "4"
  logicalTotalBytes := some "8"
  gmSpanElems := "7"
  ubSpanElems := "4" }

def wideSpan : PlanRow := { plainRow with
  blockDim := some "3"
  dim := "1"
  outputDims := "2"
  outputStride := "1"
  inputStride := "4294967200"
  totalElems := "2"
  gmSpanElems := "4294967201"
  ubSpanElems := "2" }

instance (row : PlanRow) (exp : Experiment) : Decidable (TrueSpans row exp) :=
  decidable_of_iff (∃ lists ∈ checkLists row exp.tiling.dim,
    (exp.gmSpanElems : Int) = span (lists.1.zip lists.2.2) ∧ (exp.ubSpanElems : Int) = span (lists.1.zip lists.2.1))
    ⟨fun ⟨lists,there,gm,ub⟩ => ⟨lists.1,lists.2.1,lists.2.2,there,gm,ub⟩,
      fun ⟨dims,outputStride,inputStride,there,gm,ub⟩ => ⟨(dims,outputStride,inputStride),there,gm,ub⟩⟩

/-- Accepted rows with true spans that leave the bounds: an array is indexed at its length, two cores read one
element, the offset of a core wraps around. -/
theorem accepted_rows_unsafe :
    (∃ exp ∈ buildExperiment sixDims, TrueSpans sixDims exp ∧ kMaxDim ∈ hostIndices exp ∧ ¬Safe exp) ∧
    (∃ exp ∈ buildExperiment stridedSplit, TrueSpans stridedSplit exp ∧ 7 ∈ reads exp.tiling 0 ∧
      7 ∈ reads exp.tiling 1 ∧ ¬Safe exp) ∧
    (∃ exp ∈ buildExperiment wideSpan, TrueSpans wideSpan exp ∧ (∃ share ∈ coreShare exp.tiling 2,
      share.srcCoreBase ≠ exactBase exp exp.gmSpanElems 2) ∧ ¬Safe exp) := by
  have first : ∃ exp ∈ buildExperiment sixDims, TrueSpans sixDims exp ∧
      kMaxDim ∈ hostIndices exp := by decide +kernel
  have second : ∃ exp ∈ buildExperiment stridedSplit, TrueSpans stridedSplit exp ∧
      1 < exp.blockDim ∧ 7 ∈ reads exp.tiling 0 ∧ 7 ∈ reads exp.tiling 1 := by decide +kernel
  have third : ∃ exp ∈ buildExperiment wideSpan, TrueSpans wideSpan exp ∧
      2 < exp.blockDim ∧ ∃ share ∈ coreShare exp.tiling 2, share.srcCoreBase ≠ exactBase exp exp.gmSpanElems 2 := by
    decide +kernel
  refine ⟨?_,?_,?_⟩
  · obtain ⟨exp,built,spans,beyond⟩ := first
    exact ⟨exp,built,spans,beyond,fun safe => absurd (safe.hostIndices_lt _ beyond) (lt_irrefl _)⟩
  · obtain ⟨exp,built,spans,cores,there,there'⟩ := second
    exact ⟨exp,built,spans,there,there',
      fun safe => safe.apart 0 (by omega) 1 cores (by omega) 7 there there'⟩
  · obtain ⟨exp,built,spans,cores,share,shared,other⟩ := third
    exact ⟨exp,built,spans,⟨share,shared,other⟩,fun safe => other (safe.exact 2 cores share shared).1⟩

/-- The plain row fits, so its run is safe. -/
theorem plainRow_safe : ∃ exp, buildExperiment plainRow = some exp ∧ TrueSpans plainRow exp ∧ Safe exp := by
  have found : ∃ exp ∈ buildExperiment plainRow, TrueSpans plainRow exp ∧
      exp.tiling.dim = 2 ∧ ¬Splits exp ∧
      ((exp.blockDim - 1) * (max exp.totalElems exp.gmSpanElems + 64) < twoPow32 ∧
        (exp.blockDim - 1) * (max exp.totalElems exp.ubSpanElems + 64) < twoPow32) ∧
      (0 ≤ (exp.tiling.srcOffsetElem : Int) + low (inputAxes exp.tiling 0) ∧
        high (inputAxes exp.tiling 0) < exp.tiling.srcCoreStrideElems) ∧
      (0 ≤ (exp.tiling.dstOffsetElem : Int) + low (outputAxes exp.tiling 0) ∧
        ((exp.tiling.dstOffsetElem : Int) + high (outputAxes exp.tiling 0) + 1) * dtypeSize exp.tiling.dtype
          ≤ exp.tiling.ubBufferBytes) := by decide +kernel
  obtain ⟨exp,built,spans,two,whole,bases,src,dst⟩ := found
  refine ⟨exp,built,spans,(safe_iff_fits plainRow exp built spans).mpr ?_⟩
  refine ⟨by rw [two]; decide,fun none => absurd (two.symm.trans none) (by decide),fun _ => bases,
    fun _ _ => ⟨fun _ => src,fun _ => dst⟩,fun splits => absurd splits whole,fun splits => absurd splits whole⟩

end GraphEngine.Nddma.Harness
