import GraphEngine.Nddma.Harness

/-! The split of a fixed total over the cores: `nddma_kernel` takes the bounds of a core from one product in 64 bits and
keeps them, the index of the next core and the size of the share in 32 bits. -/
namespace GraphEngine.Nddma.Harness

variable (t : TilingData)

structure SplitFields : Prop where
  total : t.logicalTotalElems < twoPow32
  cores : t.blockDim < twoPow32

def splitStart (core : Nat) : Nat := toUInt32 (t.logicalTotalElems * core % twoPow64 / t.blockDim)

def splitEnd (core : Nat) : Nat := splitStart t (toUInt32 (core + 1))

def shareElems (core : Nat) : Nat := toUInt32 (splitEnd t core + twoPow32 - splitStart t core)

structure SplitsWhole : Prop where
  first : splitStart t 0 = 0
  consecutive : ∀ core, core + 1 < t.blockDim → splitEnd t core = splitStart t (core + 1)
  last : splitEnd t (t.blockDim - 1) = t.logicalTotalElems
  disjoint : ∀ core < t.blockDim, ∀ other < t.blockDim, core ≠ other →
    ∀ x, ¬((splitStart t core ≤ x ∧ x < splitEnd t core) ∧ splitStart t other ≤ x ∧ x < splitEnd t other)
  cover : ∀ x, x < t.logicalTotalElems ↔ ∃ core < t.blockDim, splitStart t core ≤ x ∧ x < splitEnd t core
  size : ∀ core < t.blockDim, splitEnd t core = splitStart t core + shareElems t core
  even : ∀ core < t.blockDim, ∀ other < t.blockDim, shareElems t core ≤ shareElems t other + 1
  share : fixedTotalSplit t → 1 < t.blockDim → ∀ core < t.blockDim, coreShare t core =
    if shareElems t core = 0 then none
    else some ⟨splitStart t core,shareElems t core,splitStart t core,splitStart t core⟩
  copied : t.dim = 1 → t.outputDims ≠ [] → ∀ core < t.blockDim, shareElems t core ≠ 0 →
    copyDims t (shareElems t core) = [(shareElems t core : Int)]

variable {t}

theorem logicalStart_mono {core other : Nat} (order : core ≤ other) : logicalStart t core ≤ logicalStart t other :=
  Nat.div_le_div_right (Nat.mul_le_mul_left _ order)

theorem logicalStart_succ (core : Nat) : logicalStart t core + t.logicalTotalElems / t.blockDim ≤ logicalStart t (core + 1) ∧
      logicalStart t (core + 1) ≤ logicalStart t core + t.logicalTotalElems / t.blockDim + 1 := by
  rw [logicalStart,logicalStart,Nat.mul_succ]
  rcases Nat.eq_zero_or_pos t.blockDim with zero | positive
  · simp [zero]
  · rw [Nat.add_div positive]
    split <;> omega

theorem exists_share {x cores : Nat} (inside : x < logicalStart t cores) :
    ∃ core < cores, logicalStart t core ≤ x ∧ x < logicalStart t (core + 1) := by
  induction cores with
  | zero => simp [logicalStart] at inside
  | succ cores ih =>
    rcases lt_or_ge x (logicalStart t cores) with before | after
    · obtain ⟨core,bound,range⟩ := ih before
      exact ⟨core,Nat.lt_succ_of_lt bound,range⟩
    · exact ⟨cores,Nat.lt_succ_self _,after,inside⟩

theorem logicalStart_le {core : Nat} (bound : core ≤ t.blockDim) : logicalStart t core ≤ t.logicalTotalElems := by
  apply Nat.div_le_of_le_mul
  rw [mul_comm t.blockDim]
  exact Nat.mul_le_mul_left _ bound

section Widths
variable (fields : SplitFields t)

include fields

theorem splitStart_eq {core : Nat} (bound : core ≤ t.blockDim) : splitStart t core = logicalStart t core := by
  have product : t.logicalTotalElems * core < twoPow64 := calc
    t.logicalTotalElems * core ≤ (twoPow32 - 1) * (twoPow32 - 1) :=
      Nat.mul_le_mul (Nat.le_sub_one_of_lt fields.total) (Nat.le_sub_one_of_lt (lt_of_le_of_lt bound fields.cores))
    _ < twoPow64 := by decide
  rw [splitStart,Nat.mod_eq_of_lt product,toUInt32]
  exact Nat.mod_eq_of_lt (lt_of_le_of_lt (logicalStart_le bound) fields.total)

theorem splitEnd_eq {core : Nat} (bound : core < t.blockDim) : splitEnd t core = logicalStart t (core + 1) := by
  have small : core + 1 < twoPow32 := lt_of_le_of_lt bound fields.cores
  rw [splitEnd,toUInt32,Nat.mod_eq_of_lt small]
  exact splitStart_eq fields bound

theorem shareElems_eq {core : Nat} (bound : core < t.blockDim) :
    shareElems t core = logicalStart t (core + 1) - logicalStart t core := by
  have order : logicalStart t core ≤ logicalStart t (core + 1) := logicalStart_mono (Nat.le_succ core)
  have top : logicalStart t (core + 1) ≤ t.logicalTotalElems := logicalStart_le bound
  have total := fields.total
  rw [shareElems,splitEnd_eq fields bound,splitStart_eq fields bound.le,toUInt32,
    show logicalStart t (core + 1) + twoPow32 - logicalStart t core =
      logicalStart t (core + 1) - logicalStart t core + twoPow32 by omega,Nat.add_mod_right]
  exact Nat.mod_eq_of_lt (by omega)

end Widths

/-- The cores share a fixed total: their intervals follow one another from the first element to the last, and every element
belongs to one core. -/
theorem fixed_total_split (t : TilingData) (fields : SplitFields t) (positive : 0 < t.blockDim) : SplitsWhole t := by
  have start {core : Nat} (bound : core < t.blockDim) := splitStart_eq fields bound.le
  have stop {core : Nat} (bound : core < t.blockDim) := splitEnd_eq fields bound
  have size {core : Nat} (bound : core < t.blockDim) := shareElems_eq fields bound
  have whole : logicalStart t t.blockDim = t.logicalTotalElems := Nat.mul_div_cancel _ positive
  refine ⟨?_,?_,?_,?_,?_,?_,?_,?_,?_⟩
  · rw [start positive,logicalStart,Nat.mul_zero,Nat.zero_div]
  · intro core bound
    rw [stop (Nat.lt_of_succ_lt bound),start bound]
  · rw [stop (Nat.sub_one_lt_of_lt positive),Nat.sub_add_cancel positive,whole]
  · intro core bound other bound' different x
    rw [start bound,stop bound,start bound',stop bound']
    rcases Nat.lt_or_gt_of_ne different with below | above
    · have order : logicalStart t (core + 1) ≤ logicalStart t other := logicalStart_mono below
      omega
    · have order : logicalStart t (other + 1) ≤ logicalStart t core := logicalStart_mono above
      omega
  · intro x
    refine ⟨?_,?_⟩
    · intro inside
      rw [← whole] at inside
      obtain ⟨core,bound,range⟩ := exists_share inside
      refine ⟨core,bound,?_⟩
      rwa [start bound,stop bound]
    · intro ⟨core,bound,_,below⟩
      rw [stop bound] at below
      exact Nat.lt_of_lt_of_le below (logicalStart_le bound)
  · intro core bound
    have order : logicalStart t core ≤ logicalStart t (core + 1) := logicalStart_mono (Nat.le_succ core)
    rw [start bound,stop bound,size bound]
    omega
  · intro core bound other bound'
    have upper := (logicalStart_succ (t := t) core).2
    have lower := (logicalStart_succ (t := t) other).1
    rw [size bound,size bound']
    omega
  · intro split several core bound
    rw [size bound,start bound,coreShare,if_neg (Nat.not_le_of_lt bound),if_pos ⟨split,several⟩]
  · intro single filled core _ busy
    obtain ⟨first,rest,shape⟩ := List.exists_cons_of_ne_nil filled
    simp [copyDims,busy,single,shape]

def tenOverThree : TilingData :=
  ⟨.int32,1,1,0,3,10,10,0,0,0,74,74,[10],[1],[1]⟩

theorem fixed_total_split_ten : SplitsWhole tenOverThree :=
  fixed_total_split tenOverThree ⟨by decide,by decide⟩ (by decide)

end GraphEngine.Nddma.Harness
