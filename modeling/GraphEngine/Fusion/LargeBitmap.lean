import Mathlib.Data.List.Basic
import Mathlib.Data.List.GetD
import Mathlib.Data.Nat.SuccPred

/-! Bitmaps of 64-bit words. A bitmap has just as many words as its size needs; `Or` with a shorter bitmap leaves
the words beyond it. -/
namespace GraphEngine.Fusion

open List
open BitVec (twoPow)

def kBitsEachValue : Nat := 64

def alignArraySize (bitSize : Nat) : Nat := (bitSize + kBitsEachValue - 1) / kBitsEachValue

structure LargeBitmap where
  size : Nat
  bits : List (BitVec 64)
  length_eq : bits.length = alignArraySize size
  deriving DecidableEq

namespace LargeBitmap

def zero (size : Nat) : LargeBitmap := ⟨size,List.replicate (alignArraySize size) 0,List.length_replicate⟩

def setValues (bitmap : LargeBitmap) (value : BitVec 64) : LargeBitmap where
  size := bitmap.size
  bits := bitmap.bits.map fun _ => value
  length_eq := by rw [List.length_map,bitmap.length_eq]

def setBit (bitmap : LargeBitmap) (index : Nat) : LargeBitmap :=
  if index < bitmap.size then
    { size := bitmap.size
      bits := bitmap.bits.modify (index / kBitsEachValue) (· ||| BitVec.twoPow 64 (index % kBitsEachValue))
      length_eq := by rw [List.length_modify,bitmap.length_eq] }
  else bitmap

def getBit (bitmap : LargeBitmap) (index : Nat) : Bool :=
  if index < bitmap.size then
    bitmap.bits.getD (index / kBitsEachValue) 0 &&& BitVec.twoPow 64 (index % kBitsEachValue) != 0
  else false

def orWords : List (BitVec 64) → List (BitVec 64) → List (BitVec 64)
  | [],_ => []
  | word :: words,[] => word :: words
  | word :: words,other :: others => (word ||| other) :: orWords words others

theorem length_orWords (words others : List (BitVec 64)) : (orWords words others).length = words.length := by
  induction words generalizing others with
  | nil => rfl
  | cons word words ih =>
    cases others with
    | nil => rfl
    | cons other others => rw [orWords,length_cons,length_cons,ih]

def or (bitmap another : LargeBitmap) : LargeBitmap where
  size := bitmap.size
  bits := orWords bitmap.bits another.bits
  length_eq := by rw [length_orWords,bitmap.length_eq]

def clearBit (bits : List (BitVec 64)) (index : Nat) : List (BitVec 64) :=
  bits.modify (index / kBitsEachValue) (· &&& ~~~BitVec.twoPow 64 (index % kBitsEachValue))

section Clearing
variable (indices : List Nat) (bits : List (BitVec 64))

theorem length_clearBits : (indices.foldl clearBit bits).length = bits.length := by
  induction indices generalizing bits with
  | nil => rfl
  | cons index indices ih => rw [foldl_cons,ih,clearBit,length_modify]

end Clearing

def resizeBits (bitmap : LargeBitmap) (newSize : Nat) : LargeBitmap :=
  if smaller : newSize < bitmap.size then bitmap
  else if same : alignArraySize newSize = alignArraySize bitmap.size then
    ⟨newSize,bitmap.bits,by rw [bitmap.length_eq,same]⟩
  else
    { size := newSize
      bits := (List.range' bitmap.size (kBitsEachValue - 1)).foldl clearBit
        (bitmap.bits ++ List.replicate (alignArraySize newSize - alignArraySize bitmap.size) 0)
      length_eq := by
        have larger : alignArraySize bitmap.size ≤ alignArraySize newSize := by
          unfold alignArraySize kBitsEachValue
          omega
        rw [length_clearBits,List.length_append,List.length_replicate,bitmap.length_eq]
        omega }

@[simp] theorem zero_size (size : Nat) : (zero size).size = size := rfl

section Words
variable (bitmap : LargeBitmap) (index : Nat)

@[simp] theorem setValues_size (value : BitVec 64) : (bitmap.setValues value).size = bitmap.size := rfl

@[simp] theorem or_size (bitmap another : LargeBitmap) : (bitmap.or another).size = bitmap.size := rfl

@[simp] theorem setBit_size : (bitmap.setBit index).size = bitmap.size := by
  unfold setBit
  split <;> rfl

def wordBit (bitmap : LargeBitmap) (index : Nat) : Bool :=
  (bitmap.bits.getD (index / kBitsEachValue) 0).getLsbD (index % kBitsEachValue)

private theorem bit_lt : index % kBitsEachValue < 64 := Nat.mod_lt _ (by decide)

theorem getBit_eq : bitmap.getBit index = (decide (index < bitmap.size) && bitmap.wordBit index) := by
  unfold getBit wordBit
  by_cases small : index < bitmap.size
  · rw [if_pos small,BitVec.and_twoPow]
    simp only [small,decide_true,Bool.true_and]
    cases set : (bitmap.bits.getD (index / kBitsEachValue) 0).getLsbD (index % kBitsEachValue) with
    | false => simp
    | true =>
      have nonzero : twoPow 64 (index % kBitsEachValue) ≠ 0 := by
        intro zero
        have bit := congrArg (·.getLsbD (index % kBitsEachValue)) zero
        simp [bit_lt index] at bit
      simpa using nonzero
  · rw [if_neg small]
    simp [small]

theorem wordBit_zero (size index : Nat) : (zero size).wordBit index = false := by
  unfold wordBit zero
  rw [getD_eq_getElem?_getD,getElem?_replicate]
  split <;> simp

theorem wordBit_setValues_zero : (bitmap.setValues 0).wordBit index = false := by
  unfold wordBit setValues
  rw [getD_eq_getElem?_getD,getElem?_map]
  cases bitmap.bits[index / kBitsEachValue]? <;> simp

theorem getBit_zero (size index : Nat) : (zero size).getBit index = false := by
  rw [getBit_eq,wordBit_zero,Bool.and_false]

theorem getBit_setValues_zero : (bitmap.setValues 0).getBit index = false := by
  rw [getBit_eq,wordBit_setValues_zero,Bool.and_false]

end Words

section Bits
variable {bitmap another : LargeBitmap} {index newSize : Nat} (indices : List Nat) (bits : List (BitVec 64))

theorem word_lt (small : index < bitmap.size) : index / kBitsEachValue < bitmap.bits.length := by
  rw [bitmap.length_eq]
  unfold alignArraySize kBitsEachValue
  omega

theorem wordBit_setBit (small : index < bitmap.size) (other : Nat) :
    (bitmap.setBit index).wordBit other = (bitmap.wordBit other || decide (index = other)) := by
  unfold setBit
  rw [if_pos small]
  unfold wordBit
  by_cases word : index / kBitsEachValue = other / kBitsEachValue
  · have inside := word_lt small
    rw [word] at inside
    have modified : (bitmap.bits.modify (index / kBitsEachValue)
        (· ||| twoPow 64 (index % kBitsEachValue))).getD (other / kBitsEachValue) 0 =
        bitmap.bits.getD (other / kBitsEachValue) 0 ||| twoPow 64 (index % kBitsEachValue) := by
      rw [getD_eq_getElem?_getD,getElem?_modify,word,getD_eq_getElem?_getD,
        getElem?_eq_getElem inside]
      simp
    rw [modified,BitVec.getLsbD_or,BitVec.getLsbD_twoPow]
    by_cases same : index = other
    · subst same
      simp [bit_lt index]
    · have bit : index % kBitsEachValue ≠ other % kBitsEachValue := by
        intro bit
        apply same
        rw [← Nat.div_add_mod index kBitsEachValue,← Nat.div_add_mod other kBitsEachValue,word,bit]
      simp [same,bit]
  · have different : index ≠ other := fun same => word (by rw [same])
    have kept : (bitmap.bits.modify (index / kBitsEachValue)
        (· ||| twoPow 64 (index % kBitsEachValue))).getD (other / kBitsEachValue) 0 =
        bitmap.bits.getD (other / kBitsEachValue) 0 := by
      rw [getD_eq_getElem?_getD,getElem?_modify,getD_eq_getElem?_getD]
      simp [word]
    rw [kept]
    simp [different]

theorem getBit_setBit (index other : Nat) :
    (bitmap.setBit index).getBit other = (bitmap.getBit other || decide (index = other ∧ index < bitmap.size)) := by
  rw [getBit_eq,getBit_eq,setBit_size]
  by_cases small : index < bitmap.size
  · rw [wordBit_setBit small]
    by_cases same : index = other
    · simp [← same,small]
    · simp [same]
  · unfold setBit
    rw [if_neg small]
    simp [small]

theorem getD_orWords (words others : List (BitVec 64)) (index : Nat) : (orWords words others).getD index 0 =
      words.getD index 0 ||| if index < words.length then others.getD index 0 else 0 := by
  induction words generalizing others index with
  | nil => simp [orWords]
  | cons word words ih =>
    cases others with
    | nil => simp [orWords]
    | cons other others =>
      cases index with
      | zero => simp [orWords]
      | succ index => simpa [orWords] using ih others index

theorem getBit_or (bitmap another : LargeBitmap) (index : Nat) : (bitmap.or another).getBit index =
      (bitmap.getBit index || (decide (index < bitmap.size) && another.wordBit index)) := by
  rw [getBit_eq,getBit_eq,or_size]
  by_cases small : index < bitmap.size
  · have inside := word_lt small
    have words : (bitmap.or another).wordBit index = (bitmap.wordBit index || another.wordBit index) := by
      unfold wordBit
      change ((orWords bitmap.bits another.bits).getD _ 0).getLsbD _ = _
      rw [getD_orWords,if_pos inside,BitVec.getLsbD_or]
    rw [words]
    simp [small]
  · simp [small]

theorem wordBit_or (bitmap another : LargeBitmap) (index : Nat) : (bitmap.or another).wordBit index =
    (bitmap.wordBit index || (decide (index / kBitsEachValue < alignArraySize bitmap.size) && another.wordBit index)) := by
  unfold wordBit
  change ((orWords bitmap.bits another.bits).getD _ 0).getLsbD _ = _
  rw [getD_orWords,BitVec.getLsbD_or,bitmap.length_eq]
  split
  · rename_i inside
    simp [inside]
  · rename_i outside
    simp [outside]

theorem getLsbD_clearBits (other : index ∉ indices) :
    ((indices.foldl clearBit bits).getD (index / kBitsEachValue) 0).getLsbD (index % kBitsEachValue) =
      (bits.getD (index / kBitsEachValue) 0).getLsbD (index % kBitsEachValue) := by
  induction indices generalizing bits with
  | nil => rfl
  | cons cleared indices ih =>
    rw [foldl_cons,ih _ fun later => other (mem_cons_of_mem _ later)]
    have apart : cleared ≠ index := fun same => other (same ▸ mem_cons_self)
    unfold clearBit
    rw [getD_eq_getElem?_getD,getElem?_modify,getD_eq_getElem?_getD]
    by_cases word : cleared / kBitsEachValue = index / kBitsEachValue
    · have bit : cleared % kBitsEachValue ≠ index % kBitsEachValue := by
        intro bit
        apply apart
        rw [← Nat.div_add_mod cleared kBitsEachValue,← Nat.div_add_mod index kBitsEachValue,word,bit]
      cases bits[index / kBitsEachValue]? <;> simp [word,bit.symm,bit_lt index]
    · simp [word]

theorem getLsbD_clearBits_zero (clear : (bits.getD (index / kBitsEachValue) 0).getLsbD (index % kBitsEachValue) = false) :
    ((indices.foldl clearBit bits).getD (index / kBitsEachValue) 0).getLsbD (index % kBitsEachValue) = false := by
  induction indices generalizing bits with
  | nil => exact clear
  | cons cleared indices ih =>
    rw [foldl_cons]
    apply ih
    unfold clearBit
    rw [getD_eq_getElem?_getD] at clear ⊢
    rw [getElem?_modify]
    split
    · cases there : bits[index / kBitsEachValue]? with
      | none => simp
      | some word =>
        rw [there] at clear
        simp_all
    · simpa using clear

theorem word_lt_of_wordBit (set : bitmap.wordBit index = true) : index / kBitsEachValue < alignArraySize bitmap.size := by
  by_contra outside
  unfold wordBit at set
  rw [getD_eq_getElem?_getD,getElem?_eq_none (by rw [bitmap.length_eq]; exact Nat.not_lt.mp outside)] at set
  simp at set

theorem wordBit_or_of_size (same : bitmap.size = another.size) (index : Nat) :
    (bitmap.or another).wordBit index = (bitmap.wordBit index || another.wordBit index) := by
  rw [wordBit_or,same]
  cases set : another.wordBit index with
  | false => rw [Bool.and_false]
  | true => rw [decide_eq_true (word_lt_of_wordBit set),Bool.true_and]

theorem resizeBits_size (larger : bitmap.size ≤ newSize) : (bitmap.resizeBits newSize).size = newSize := by
  unfold resizeBits
  rw [dif_neg (Nat.not_lt.mpr larger)]
  split <;> rfl

theorem wordBit_resizeBits (larger : bitmap.size ≤ newSize)
    (clean : ∀ index, bitmap.wordBit index = true → index < bitmap.size) (index : Nat) :
    (bitmap.resizeBits newSize).wordBit index = bitmap.wordBit index := by
  unfold resizeBits
  rw [dif_neg (Nat.not_lt.mpr larger)]
  split
  · rfl
  · have padded : ((bitmap.bits ++ List.replicate (alignArraySize newSize - alignArraySize bitmap.size) 0).getD
        (index / kBitsEachValue) 0).getLsbD (index % kBitsEachValue) = bitmap.wordBit index := by
      unfold wordBit
      rw [getD_eq_getElem?_getD,getElem?_append,getElem?_replicate,getD_eq_getElem?_getD]
      split
      · rfl
      · rename_i outside
        rw [getElem?_eq_none (Nat.not_lt.mp outside)]
        split <;> rfl
    cases old : bitmap.wordBit index with
    | false => exact getLsbD_clearBits_zero _ _ (padded.trans old)
    | true =>
      have kept : index ∉ List.range' bitmap.size (kBitsEachValue - 1) := by
        intro cleared
        have behind := (mem_range'_1.mp cleared).1
        have inside := clean index old
        omega
      exact (getLsbD_clearBits _ _ kept).trans (padded.trans old)

theorem getBit_or_of_size (same : bitmap.size = another.size) (index : Nat) :
    (bitmap.or another).getBit index = (bitmap.getBit index || another.getBit index) := by
  rw [getBit_or,getBit_eq another,same]

end Bits

end LargeBitmap
end GraphEngine.Fusion
