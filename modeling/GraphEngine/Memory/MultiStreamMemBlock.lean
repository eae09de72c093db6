import GraphEngine.Memory.VersionBlocks

/-! One block shared by several streams: its occupation counts, its flag matrix and the discipline
that ties them while the block is in use. -/
namespace GraphEngine.Memory
open GraphEngine.Lib Function

/-- `mem_block_` is kept as the size of the block it points to, or as no block. -/
structure MultiStreamMemBlock (n : Nat) where
  memBlock : Option Nat
  version : Int
  birthAllocator : Option (Fin n)
  occupyMif : Mif n
  streamIdsToOccupyCount : Fin n → Nat

namespace MultiStreamMemBlock
variable {n : Nat}

def initial : MultiStreamMemBlock n := ⟨none,0,none,Mif.reInit,fun _ => 0⟩

variable (b : MultiStreamMemBlock n)

def getSize : Nat := b.memBlock.getD 0

def getCount (stream : Fin n) : Nat := b.streamIdsToOccupyCount stream

def addCount (stream : Fin n) : MultiStreamMemBlock n :=
  {b with streamIdsToOccupyCount := Function.update b.streamIdsToOccupyCount stream (b.getCount stream + 1)}

def subCount (stream : Fin n) : MultiStreamMemBlock n :=
  {b with streamIdsToOccupyCount := Function.update b.streamIdsToOccupyCount stream (b.getCount stream - 1)}

def plusVersion : MultiStreamMemBlock n := {b with version := b.version + 1}

def clearMemBlock : MultiStreamMemBlock n := {b with memBlock := none}

def reInitMifs : MultiStreamMemBlock n :=
  {b with occupyMif := Mif.reInit, streamIdsToOccupyCount := fun _ => 0}

def updateLocalRecycleMif (stream : Fin n) : MultiStreamMemBlock n :=
  {b with occupyMif := b.occupyMif.clear stream stream}

def canGlobalRecycle (stream : Fin n) : Bool := !b.occupyMif.isAnySet stream

def newAccessStream (dstStream : Fin n) : MultiStreamMemBlock n :=
  {b.addCount dstStream with occupyMif := b.occupyMif.setAll dstStream}

def reInit (birthAllocator : Fin n) (block : Nat) :
    GraphStatus × MultiStreamMemBlock n :=
  let born := {b with birthAllocator := some birthAllocator}
  if born.memBlock.isSome then (.paramInvalid,born)
  else (.success,({born with memBlock := some block} : MultiStreamMemBlock n).reInitMifs.newAccessStream birthAllocator)

def mergeClearedFrom (srcStream dstStream : Fin n) : MultiStreamMemBlock n :=
  {b with occupyMif := b.occupyMif.mergeClearedFrom srcStream dstStream}

/-- `row` believes that `stream` occupies the block. -/
def Marks (row stream : Fin n) : Prop := b.occupyMif.isSet row stream = true

instance (b : MultiStreamMemBlock n) (row stream : Fin n) : Decidable (b.Marks row stream) :=
  inferInstanceAs (Decidable (_ = _))

/-- While a block is in use a stream's own flag says whether it holds the block, and no other
stream may have dropped the flag of a holder. -/
structure Disciplined : Prop where
  supported : b.occupyMif.Supported
  own : ∀ stream, b.Marks stream stream ↔ 0 < b.getCount stream
  known : ∀ stream, b.Marks stream stream → ∀ row, b.Marks row stream

variable {b}

theorem marks_newAccessStream (few : n ≤ 63) (dst row stream : Fin n) :
    (b.newAccessStream dst).Marks row stream ↔ b.Marks row stream ∨ stream = dst := by
  simp [Marks,newAccessStream,Mif.isSet_setAll (show n ≤ 64 by omega)]

theorem marks_updateLocalRecycleMif (few : n ≤ 63) (at_ row stream : Fin n) :
    (b.updateLocalRecycleMif at_).Marks row stream ↔ b.Marks row stream ∧ ¬ (row = at_ ∧ stream = at_) := by
  simp only [Marks,updateLocalRecycleMif,Mif.isSet_clear (show n ≤ 64 by omega)]
  grind

theorem marks_mergeClearedFrom (few : n ≤ 63) (src dst row stream : Fin n) :
    (b.mergeClearedFrom src dst).Marks row stream ↔ b.Marks row stream ∧ (row = dst → b.Marks src stream) := by
  simp only [Marks,mergeClearedFrom,Mif.isSet_mergeClearedFrom (show n ≤ 64 by omega)]
  grind

theorem not_marks_reInitMifs (row stream : Fin n) : ¬ b.reInitMifs.Marks row stream := by
  simp [Marks,reInitMifs]

theorem canGlobalRecycle_iff (few : n ≤ 63) (supported : b.occupyMif.Supported) (row : Fin n) :
    b.canGlobalRecycle row = true ↔ ∀ stream, ¬ b.Marks row stream := by
  simp [canGlobalRecycle,Marks,Mif.isAnySet_eq_false_iff (show n ≤ 64 by omega) b.occupyMif supported row]

theorem Disciplined.newAccessStream (few : n ≤ 63) (disciplined : b.Disciplined) (dst : Fin n) :
    (b.newAccessStream dst).Disciplined where
  supported := Mif.supported_setAll (by omega) _ _ disciplined.supported
  own stream := by
    have before := disciplined.own stream
    rw [marks_newAccessStream few]
    simp only [getCount,MultiStreamMemBlock.newAccessStream,addCount,update_apply] at before ⊢
    grind
  known stream := by
    intro held row
    rw [marks_newAccessStream few] at held ⊢
    exact held.imp_left fun own => disciplined.known stream own row

theorem reInitMifs_disciplined : b.reInitMifs.Disciplined where
  supported := Mif.supported_reInit
  own stream := iff_of_false (not_marks_reInitMifs _ _) (by simp [getCount,reInitMifs])
  known _ held := absurd held (not_marks_reInitMifs _ _)

theorem Disciplined.addCount (disciplined : b.Disciplined) {stream : Fin n} (held : 0 < b.getCount stream) :
    (b.addCount stream).Disciplined where
  supported := disciplined.supported
  own other := by
    have before := disciplined.own other
    change b.Marks other other ↔ _
    simp only [getCount,MultiStreamMemBlock.addCount,update_apply] at before held ⊢
    grind
  known := disciplined.known

theorem Disciplined.subCount (disciplined : b.Disciplined) {stream : Fin n} (more : 1 < b.getCount stream) :
    (b.subCount stream).Disciplined where
  supported := disciplined.supported
  own other := by
    have before := disciplined.own other
    change b.Marks other other ↔ _
    simp only [getCount,MultiStreamMemBlock.subCount,update_apply] at before more ⊢
    grind
  known := disciplined.known

theorem Disciplined.lastCount (few : n ≤ 63) (disciplined : b.Disciplined) {stream : Fin n}
    (last : b.getCount stream = 1) : ((b.subCount stream).updateLocalRecycleMif stream).Disciplined where
  supported := Mif.supported_clear _ _ _ disciplined.supported
  own other := by
    have before := disciplined.own other
    rw [marks_updateLocalRecycleMif few]
    change b.Marks other other ∧ _ ↔ _
    simp only [getCount,MultiStreamMemBlock.subCount,updateLocalRecycleMif,update_apply] at before last ⊢
    grind
  known other := by
    have before := disciplined.known other
    intro held row
    rw [marks_updateLocalRecycleMif few] at held ⊢
    refine ⟨before held.1 row,?_⟩
    rintro ⟨rfl,rfl⟩
    exact held.2 ⟨rfl,rfl⟩

theorem Disciplined.mergeClearedFrom (few : n ≤ 63) (disciplined : b.Disciplined) (src dst : Fin n) :
    (b.mergeClearedFrom src dst).Disciplined where
  supported := Mif.supported_mergeClearedFrom _ _ _ disciplined.supported
  own stream := by
    have before := disciplined.own stream
    rw [marks_mergeClearedFrom few]
    change _ ↔ 0 < b.getCount stream
    rw [← before]
    exact ⟨And.left,fun own => ⟨own,fun _ => disciplined.known stream own src⟩⟩
  known stream := by
    intro held row
    rw [marks_mergeClearedFrom few] at held ⊢
    exact ⟨disciplined.known stream held.1 row,fun _ => disciplined.known stream held.1 src⟩

end MultiStreamMemBlock
end GraphEngine.Memory
