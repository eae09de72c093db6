import Mathlib.Algebra.Divisibility.Basic
import GraphEngine.Fusion.LargeBitmap

/-! A bitmap as a set of indexes below its size. The last word may hold bits behind the size; they take part in comparisons,
and the bitmap shows them when it grows inside that word. -/
namespace GraphEngine.Fusion.LargeBitmap

open List

def andWords : List (BitVec 64) → List (BitVec 64) → List (BitVec 64)
  | [],_ => []
  | word :: words,[] => word :: words
  | word :: words,other :: others => (word &&& other) :: andWords words others

theorem length_andWords (words others : List (BitVec 64)) : (andWords words others).length = words.length := by
  fun_induction andWords words others with
  | case1 => rfl
  | case2 => rfl
  | case3 word words other others ih => rw [length_cons,length_cons,ih]

def and (bitmap another : LargeBitmap) : LargeBitmap where
  size := bitmap.size
  bits := andWords bitmap.bits another.bits
  length_eq := by rw [length_andWords,bitmap.length_eq]

/-- `ClearBit` as callers see it. -/
def clear (bitmap : LargeBitmap) (index : Nat) : LargeBitmap where
  size := bitmap.size
  bits := clearBit bitmap.bits index
  length_eq := by rw [clearBit,length_modify,bitmap.length_eq]

/-- `operator==` compares the words and nothing else. -/
def equal (bitmap another : LargeBitmap) : Bool := bitmap.bits == another.bits

/-- The bitmaps that calls make, with the indexes that the calls describe. Careful calls fill whole words only, take no index
from a longer operand into their last word and keep none by an `And` with fewer words. -/
inductive Built (careful : Prop) : LargeBitmap → Set Nat → Prop
  | new (size : Nat) : Built careful (zero size) ∅
  | setBit {bitmap indexes index} (made : Built careful bitmap indexes) (inRange : index < bitmap.size) :
    Built careful (bitmap.setBit index) (insert index indexes)
  | clearBit {bitmap indexes index} (made : Built careful bitmap indexes) (inRange : index < bitmap.size) :
    Built careful (bitmap.clear index) (indexes \ {index})
  | allZeros {bitmap indexes} (made : Built careful bitmap indexes) : Built careful (bitmap.setValues 0) ∅
  | allOnes {bitmap indexes} (made : Built careful bitmap indexes) (whole : careful → kBitsEachValue ∣ bitmap.size) :
    Built careful (bitmap.setValues (BitVec.allOnes 64)) {i | i < bitmap.size}
  | or {bitmap indexes another others} (made : Built careful bitmap indexes) (other : Built careful another others)
    (below : careful → ∀ i ∈ others, i / kBitsEachValue < alignArraySize bitmap.size → i < bitmap.size) :
    Built careful (bitmap.or another) (indexes ∪ {i ∈ others | i < bitmap.size})
  | and {bitmap indexes another others} (made : Built careful bitmap indexes) (other : Built careful another others)
    (reached : careful → ∀ i ∈ indexes, i / kBitsEachValue < alignArraySize another.size) :
    Built careful (bitmap.and another) (indexes ∩ others)
  | resizeBits {bitmap indexes newSize} (made : Built careful bitmap indexes) (larger : bitmap.size ≤ newSize) :
    Built careful (bitmap.resizeBits newSize) indexes

variable {bitmap another : LargeBitmap} {indexes others : Set Nat} {index : Nat}

theorem wordBit_allOnes (i : Nat) : (bitmap.setValues (BitVec.allOnes 64)).wordBit i = true ↔
    i / kBitsEachValue < alignArraySize bitmap.size := by
  unfold wordBit setValues
  rw [getD_eq_getElem?_getD,getElem?_map,← bitmap.length_eq]
  by_cases inside : i / kBitsEachValue < bitmap.bits.length
  · rw [getElem?_eq_getElem inside,Option.map_some,Option.getD_some,BitVec.getLsbD_allOnes,decide_eq_true_eq]
    exact iff_of_true (Nat.mod_lt _ (by decide)) inside
  · simp [inside]

theorem wordBit_clear (i : Nat) : (bitmap.clear index).wordBit i = true ↔ bitmap.wordBit i = true ∧ i ≠ index := by
  by_cases same : i = index
  · subst same
    unfold wordBit clear clearBit
    rw [getD_eq_getElem?_getD,getElem?_modify]
    cases bitmap.bits[i / kBitsEachValue]? <;> simp
  · have kept := getLsbD_clearBits [index] bitmap.bits (by simpa using same)
    unfold wordBit clear
    rw [← kept]
    simp [same]

theorem getLsbD_andWords (words others : List (BitVec 64)) (word bit : Nat) :
    ((andWords words others).getD word 0).getLsbD bit = true ↔ (words.getD word 0).getLsbD bit = true ∧
      (word < others.length → (others.getD word 0).getLsbD bit = true) := by
  fun_induction andWords words others generalizing word with
  | case1 => simp
  | case2 => simp
  | case3 first words other others ih =>
    cases word with
    | zero => simp
    | succ word => simpa using ih word

theorem wordBit_and (i : Nat) : (bitmap.and another).wordBit i = true ↔ bitmap.wordBit i = true ∧
    (i / kBitsEachValue < alignArraySize another.size → another.wordBit i = true) := by
  rw [← another.length_eq]
  exact getLsbD_andWords ..

theorem Built.exact (built : Built True bitmap indexes) :
    (∀ i, bitmap.wordBit i = true ↔ i ∈ indexes) ∧ ∀ i ∈ indexes, i < bitmap.size := by
  induction built with
  | new size => simp [wordBit_zero]
  | @setBit bitmap indexes index _ inRange ih =>
    refine ⟨fun i => ?_,?_⟩
    · rw [wordBit_setBit inRange,Bool.or_eq_true,ih.1,decide_eq_true_eq,eq_comm,or_comm]
      rfl
    · rintro i (rfl | old)
      · rwa [setBit_size]
      · rw [setBit_size]
        exact ih.2 i old
  | clearBit _ _ ih => exact ⟨fun i => by rw [wordBit_clear,ih.1]; rfl,fun i old => ih.2 i old.1⟩
  | allZeros => exact ⟨fun i => by rw [wordBit_setValues_zero]; simp,nofun⟩
  | @allOnes bitmap _ _ whole =>
    refine ⟨fun i => ?_,fun i small => small⟩
    have := whole trivial
    rw [wordBit_allOnes]
    change _ ↔ i < bitmap.size
    simp only [alignArraySize,kBitsEachValue] at this ⊢
    omega
  | or _ _ below ih ih' =>
    refine ⟨fun i => ?_,fun i member => member.elim (ih.2 i) (·.2)⟩
    rw [wordBit_or,Bool.or_eq_true,ih.1,Bool.and_eq_true,decide_eq_true_eq,ih'.1]
    refine or_congr Iff.rfl ⟨fun ⟨word,member⟩ => ⟨member,below trivial i member word⟩,fun ⟨member,small⟩ => ⟨?_,member⟩⟩
    simp only [alignArraySize,kBitsEachValue]
    omega
  | and _ _ reached ih ih' =>
    refine ⟨fun i => ?_,fun i member => ih.2 i member.1⟩
    rw [wordBit_and,ih.1,ih'.1]
    exact and_congr_right fun member => ⟨fun kept => kept (reached trivial i member),fun there _ => there⟩
  | resizeBits _ larger ih =>
    rw [resizeBits_size larger]
    refine ⟨fun i => ?_,fun i member => (ih.2 i member).trans_le larger⟩
    rw [wordBit_resizeBits larger fun i set => ih.2 i ((ih.1 i).mp set),ih.1]

theorem equal_iff (same : bitmap.size = another.size) :
    bitmap.equal another = true ↔ ∀ i, bitmap.wordBit i = another.wordBit i := by
  rw [equal,beq_iff_eq]
  refine ⟨fun words i => by rw [wordBit,wordBit,words],fun bits => ?_⟩
  refine ext_getElem (by rw [bitmap.length_eq,another.length_eq,same]) fun word inside inside' => ?_
  ext bit small
  have here := bits (word * 64 + bit)
  unfold wordBit at here
  have quotient : (word * 64 + bit) / kBitsEachValue = word := by
    rw [kBitsEachValue]
    omega
  have remainder : (word * 64 + bit) % kBitsEachValue = bit := by
    rw [kBitsEachValue]
    omega
  rw [quotient,remainder,getD_eq_getElem _ _ inside,getD_eq_getElem _ _ inside'] at here
  simpa [BitVec.getLsbD_eq_getElem small] using here

/-- Careful calls make bitmaps that are their sets of indexes, and equal just if the sets are. -/
theorem bitmaps_are_sets (built : Built True bitmap indexes) (other : Built True another others)
    (same : bitmap.size = another.size) :
    (∀ i, bitmap.getBit i = true ↔ i ∈ indexes) ∧ (bitmap.equal another = true ↔ indexes = others) := by
  obtain ⟨exact_,inside⟩ := built.exact
  refine ⟨fun i => ?_,?_⟩
  · rw [getBit_eq,Bool.and_eq_true,decide_eq_true_eq,exact_]
    exact ⟨And.right,fun member => ⟨inside i member,member⟩⟩
  · rw [equal_iff same,Set.ext_iff]
    refine forall_congr' fun i => ?_
    rw [← exact_,← other.exact.1,Bool.eq_iff_iff]

/-- A filled word cut down to one index, grown and joined with a bitmap that has an index of the second word. -/
def grownBitmap : LargeBitmap :=
  ((((zero 64).setValues (BitVec.allOnes 64)).and ((zero 128).setBit 2)).resizeBits 70).or ((zero 70).setBit 69)

theorem grownBitmap_built : Built True grownBitmap ({i | i < 64} ∩ insert 2 ∅ ∪ {i | i ∈ (insert 69 ∅ : Set Nat) ∧ i < 70}) := by
  have filled : Built True (((zero 64).setValues (BitVec.allOnes 64)).and ((zero 128).setBit 2)) ({i | i < 64} ∩ insert 2 ∅) := by
    refine .and (.allOnes (.new 64) fun _ => dvd_rfl) (.setBit (.new 128) (by decide)) fun _ i small => ?_
    have here : i / 64 = 0 := Nat.div_eq_of_lt small
    rw [kBitsEachValue,here]
    decide
  refine .or (.resizeBits filled (by decide)) (.setBit (.new 70) (by decide)) fun _ i member _ => ?_
  rw [insert_empty_eq,Set.mem_singleton_iff] at member
  rw [member]
  decide

theorem grownBitmap_is_a_set :
    (∀ i, grownBitmap.getBit i = true ↔ i ∈ {i | i < 64} ∩ insert 2 ∅ ∪ {i | i ∈ (insert 69 ∅ : Set Nat) ∧ i < 70}) ∧
    (grownBitmap.equal (((zero 70).setBit 2).setBit 69) = true ↔
      {i | i < 64} ∩ insert 2 ∅ ∪ {i | i ∈ (insert 69 ∅ : Set Nat) ∧ i < 70} = insert 69 (insert 2 ∅)) :=
  bitmaps_are_sets grownBitmap_built (.setBit (.setBit (.new 70) (by decide)) (by decide)) rfl

/-- A filled bitmap of one index is not the bitmap with that index set and shows a second one when it grows; an `And` with an
empty bitmap of one word leaves an index of the second word, and an `Or` takes the hidden index of a longer bitmap. -/
theorem hidden_bits_are_shown :
    (Built False ((zero 1).setValues (BitVec.allOnes 64)) {i | i < 1} ∧ Built False ((zero 1).setBit 0) (insert 0 ∅) ∧
      {i | i < 1} = (insert 0 ∅ : Set Nat) ∧ ((zero 1).setValues (BitVec.allOnes 64)).equal ((zero 1).setBit 0) = false) ∧
    (Built False (((zero 1).setValues (BitVec.allOnes 64)).resizeBits 2) {i | i < 1} ∧
      (((zero 1).setValues (BitVec.allOnes 64)).resizeBits 2).getBit 1 = true) ∧
    (Built False (((zero 128).setBit 100).and (zero 64)) (insert 100 ∅ ∩ ∅) ∧
      (((zero 128).setBit 100).and (zero 64)).getBit 100 = true) ∧
    Built False (((zero 1).or ((zero 2).setBit 1)).resizeBits 2) (∅ ∪ {i ∈ (insert 1 ∅ : Set Nat) | i < 1}) ∧
      (((zero 1).or ((zero 2).setBit 1)).resizeBits 2).getBit 1 = true := by
  have ones : Built False ((zero 1).setValues (BitVec.allOnes 64)) {i | i < 1} := .allOnes (.new 1) nofun
  refine ⟨⟨ones,.setBit (.new 1) (by decide),?_,by decide⟩,⟨.resizeBits ones (by decide),by decide⟩,⟨?_,by decide⟩,?_,by decide⟩
  · ext i
    simp
  · exact .and (.setBit (.new 128) (by decide)) (.new 64) nofun
  · exact .resizeBits (.or (.new 1) (.setBit (.new 2) (by decide)) nofun) (by decide)

end GraphEngine.Fusion.LargeBitmap
