import GraphEngine.Lib.FlagWord

/-! The flag matrix of `mif.h`: every stream maintains a row saying which streams occupy a block. Rows are 64-bit words, so
the lemmas about single flags need at most 63 streams; nothing in the class enforces that. -/
namespace GraphEngine.Memory
open GraphEngine.Lib Function FlagWord

/-- `ToBit` of `Mif` and of `BaseVersionBlocks`. A shift by 64 or more is undefined in C++; the processors take the count
modulo 64. -/
def toBit (streamId : Nat) : UInt64 := (1 : UInt64) <<< UInt64.ofNat streamId

theorem toBit_eq_one (streamId : Nat) : toBit streamId = one streamId := rfl

/-- `Mif`, with `stream_ids_to_bits_` indexed by the maintaining stream. -/
structure Mif (n : Nat) where
  streamIdsToBits : Fin n → UInt64

namespace Mif
variable {n : Nat}

def reInit : Mif n := ⟨fun _ => 0⟩

def set (m : Mif n) (maintainedStream stream : Fin n) : Mif n :=
  ⟨Function.update m.streamIdsToBits maintainedStream (m.streamIdsToBits maintainedStream ||| toBit stream)⟩

def setAll (m : Mif n) (stream : Fin n) : Mif n :=
  ⟨fun row => m.streamIdsToBits row ||| toBit stream⟩

def clear (m : Mif n) (maintainedStream stream : Fin n) : Mif n :=
  ⟨Function.update m.streamIdsToBits maintainedStream (m.streamIdsToBits maintainedStream &&& ~~~toBit stream)⟩

def mergeClearedFrom (m : Mif n) (srcStream dstStream : Fin n) : Mif n :=
  ⟨Function.update m.streamIdsToBits dstStream (m.streamIdsToBits dstStream &&& m.streamIdsToBits srcStream)⟩

def isSet (m : Mif n) (maintainedStream stream : Fin n) : Bool :=
  m.streamIdsToBits maintainedStream &&& toBit stream != 0

def isAnySet (m : Mif n) (maintainedStream : Fin n) : Bool :=
  m.streamIdsToBits maintainedStream != 0

def Supported (m : Mif n) : Prop := ∀ row i, FlagWord.has (m.streamIdsToBits row) i = true → i < n

theorem toBit_has {stream : Nat} (few : n ≤ 64) (inside : stream < n) (i : Nat) :
    has (toBit stream) i = decide (i = stream) :=
  has_one_of_lt (by omega)

theorem isSet_eq_has (few : n ≤ 64) (m : Mif n) (row stream : Fin n) :
    m.isSet row stream = has (m.streamIdsToBits row) stream := by
  have narrow : stream.val < 64 := by omega
  have zero := and_one_eq_zero_iff (m.streamIdsToBits row) narrow
  cases held : has (m.streamIdsToBits row) stream with
  | false => simp [isSet,toBit_eq_one,zero.mpr held]
  | true =>
    have nonzero : m.streamIdsToBits row &&& one stream ≠ 0 := by
      intro empty
      simp [zero.mp empty] at held
    simp [isSet,toBit_eq_one,nonzero]

@[simp] theorem isSet_reInit (row stream : Fin n) : (reInit : Mif n).isSet row stream = false := by
  simp [isSet,reInit]

theorem isSet_set (few : n ≤ 64) (m : Mif n) (at_ stream row other : Fin n) :
    (m.set at_ stream).isSet row other = (m.isSet row other || (decide (row = at_) && decide (other = stream))) := by
  rw [isSet_eq_has few,isSet_eq_has few]
  by_cases same : row = at_
  · subst row
    simp [set,toBit_has few stream.isLt,Fin.ext_iff]
  · simp [set,same]

theorem isSet_setAll (few : n ≤ 64) (m : Mif n) (stream row other : Fin n) :
    (m.setAll stream).isSet row other = (m.isSet row other || decide (other = stream)) := by
  rw [isSet_eq_has few,isSet_eq_has few]
  simp [setAll,toBit_has few stream.isLt,Fin.ext_iff]

theorem isSet_clear (few : n ≤ 64) (m : Mif n) (at_ stream row other : Fin n) :
    (m.clear at_ stream).isSet row other = (m.isSet row other && !(decide (row = at_) && decide (other = stream))) := by
  rw [isSet_eq_has few,isSet_eq_has few]
  by_cases same : row = at_
  · subst row
    simp only [clear,update_self,has_and_not,toBit_has few stream.isLt,
      decide_true,Bool.true_and,Fin.ext_iff]
  · simp [clear,same]

theorem isSet_mergeClearedFrom (few : n ≤ 64) (m : Mif n) (src dst row stream : Fin n) :
    (m.mergeClearedFrom src dst).isSet row stream = (m.isSet row stream && (!decide (row = dst) || m.isSet src stream)) := by
  rw [isSet_eq_has few,isSet_eq_has few,isSet_eq_has few]
  by_cases same : row = dst
  · subst row
    simp [mergeClearedFrom]
  · simp [mergeClearedFrom,same]

theorem supported_reInit : (reInit : Mif n).Supported := by
  intro row i held
  simp [reInit] at held

theorem supported_setAll (few : n ≤ 64) (m : Mif n) (stream : Fin n) (inside : m.Supported) :
    (m.setAll stream).Supported := by
  intro row i held
  simp only [setAll,has_or,toBit_has few stream.isLt,Bool.or_eq_true,decide_eq_true_eq] at held
  rcases held with old | rfl
  · exact inside row i old
  · exact stream.isLt

theorem supported_clear (m : Mif n) (at_ stream : Fin n) (inside : m.Supported) : (m.clear at_ stream).Supported := by
  intro row i held
  by_cases same : row = at_
  · subst row
    simp only [clear,update_self,has_and,Bool.and_eq_true] at held
    exact inside at_ i held.1
  · exact inside row i (by simpa [clear,same] using held)

theorem supported_mergeClearedFrom (m : Mif n) (src dst : Fin n) (inside : m.Supported) :
    (m.mergeClearedFrom src dst).Supported := by
  intro row i held
  by_cases same : row = dst
  · subst row
    simp only [mergeClearedFrom,update_self,has_and,Bool.and_eq_true] at held
    exact inside dst i held.1
  · exact inside row i (by simpa [mergeClearedFrom,same] using held)

theorem isAnySet_eq_false_iff (few : n ≤ 64) (m : Mif n) (inside : m.Supported) (row : Fin n) :
    m.isAnySet row = false ↔ ∀ stream, m.isSet row stream = false := by
  have word : m.isAnySet row = false ↔ m.streamIdsToBits row = 0 := by simp [isAnySet]
  rw [word,eq_zero_iff]
  constructor
  · intro none stream
    rw [isSet_eq_has few]
    exact none stream
  · intro none i
    by_contra held
    have bound := inside row i (by simpa using held)
    have absent := none ⟨i,bound⟩
    rw [isSet_eq_has few] at absent
    exact held absent

end Mif
end GraphEngine.Memory
