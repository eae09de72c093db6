import Mathlib.Data.Nat.Cast.Basic

/-! Machine words of 64 bits read as sets of flags: what each bitwise operation does to every flag, so that later proofs
never look inside a word again. -/
namespace GraphEngine.Lib.FlagWord

/-- The flag `i` of the word `w`; positions from 64 on are never held. -/
def has (w : UInt64) (i : Nat) : Bool := w.toBitVec.getLsbD i

def one (i : Nat) : UInt64 := (1 : UInt64) <<< UInt64.ofNat i

variable (w : UInt64)

theorem has_of_le {i : Nat} (wide : 64 ≤ i) : has w i = false := by
  simpa [has] using BitVec.getLsbD_of_ge w.toBitVec i wide

@[simp] theorem has_zero (i : Nat) : has 0 i = false := by simp [has]

@[simp] theorem has_or (v w : UInt64) (i : Nat) : has (v ||| w) i = (has v i || has w i) := by
  simp [has]

@[simp] theorem has_and (v w : UInt64) (i : Nat) : has (v &&& w) i = (has v i && has w i) := by
  simp [has]

theorem has_not {i : Nat} (narrow : i < 64) : has (~~~w) i = !has w i := by
  simp [has,narrow]

theorem has_and_not (v w : UInt64) (i : Nat) : has (v &&& ~~~w) i = (has v i && !has w i) := by
  by_cases narrow : i < 64
  · rw [has_and,has_not w narrow]
  · simp [has_of_le _ (Nat.le_of_not_lt narrow)]

theorem has_one (j i : Nat) : has (one j) i = decide (i = j % 64) := by
  simp only [has,one,UInt64.toBitVec_shiftLeft]
  rw [Bool.eq_iff_iff]
  simp
  omega

theorem has_one_of_lt {j i : Nat} (narrow : j < 64) : has (one j) i = decide (i = j) := by
  rw [has_one,Nat.mod_eq_of_lt narrow]

theorem ext_has {v w : UInt64} (same : ∀ i, has v i = has w i) : v = w := by
  apply UInt64.toBitVec_inj.mp
  exact BitVec.eq_of_getLsbD_eq (fun i _ => same i)

theorem eq_zero_iff : w = 0 ↔ ∀ i, has w i = false := by
  constructor
  · rintro rfl i
    exact has_zero i
  · intro none
    exact ext_has (fun i => by rw [none i,has_zero])

theorem and_one_eq_zero_iff {j : Nat} (narrow : j < 64) : w &&& one j = 0 ↔ has w j = false := by
  rw [eq_zero_iff]
  constructor
  · intro none
    simpa [has_one_of_lt narrow] using none j
  · intro absent i
    by_cases same : i = j
    · subst i
      simp [absent]
    · simp [has_one_of_lt narrow,same]

theorem one_toNat {n : Nat} (narrow : n < 64) : (one n).toNat = 2^n := by
  have inside : 2^n < 2^64 := Nat.pow_lt_pow_right (by omega) narrow
  have count : n % 2^64 % 64 = n := by omega
  rw [one,UInt64.toNat_shiftLeft]
  simp only [UInt64.toNat_ofNat',UInt64.reduceToNat,count,Nat.one_shiftLeft]
  exact Nat.mod_eq_of_lt inside

theorem has_one_sub_one {n : Nat} (narrow : n < 64) (i : Nat) : has (one n - 1) i = decide (i < n) := by
  have positive : (1 : UInt64) ≤ one n := by
    rw [UInt64.le_iff_toNat_le,one_toNat narrow]
    exact Nat.one_le_two_pow
  have value : (one n - 1).toNat = 2^n - 1 := by
    rw [UInt64.toNat_sub_of_le _ _ positive,one_toNat narrow]
    rfl
  have read : has (one n - 1) i = (one n - 1).toNat.testBit i := rfl
  rw [read,value,Nat.testBit_two_pow_sub_one]

end GraphEngine.Lib.FlagWord
