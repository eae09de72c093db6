import Mathlib.Algebra.Ring.Int.Defs
import GraphEngine.Lib.Tiling

/-! The feature-map memory of a graph is split into segments. The blocks of a continuous group stay in one segment; a segment
is closed when the block after it is seen, the last one after the loop. -/

namespace GraphEngine.Memory.GraphMemSplitter

open Lib List

structure MemoryBlock where
  childBlock : Bool
  isZeroCopy : Bool
  memoryType : Nat
  firstContinuousBlock : Bool
  lastContinuousBlock : Bool
  isFixedAddrPrior : Bool
  headOffset : Nat
  size : Nat

structure SubMemoryInfo where
  memType : Nat
  memOffsetBase : Int
  memSize : Int
  isFixedAddrPrior : Bool

def rtMemoryHbm : Nat := 2

def addSubMemoryInfo (info : SubMemoryInfo) (io : Bool) (infos : List SubMemoryInfo) : List SubMemoryInfo :=
  if 0 < info.memSize ∨ io then infos ++ [info] else infos

/-- The total of device memory is missing where the map of the totals has no entry for it. -/
def addMemoryInfo (memOffset : Option Nat) (isFixedAddrPrior io : Bool) (infos : List SubMemoryInfo) : List SubMemoryInfo :=
  match memOffset,infos.getLast? with
  | none,_ => infos
  | some total,none => addSubMemoryInfo ⟨rtMemoryHbm,0,total,isFixedAddrPrior⟩ false infos
  | some total,some back =>
    let memOffsetBase := back.memOffsetBase + back.memSize
    addSubMemoryInfo ⟨rtMemoryHbm,memOffsetBase,total - memOffsetBase,isFixedAddrPrior⟩ io infos

structure SplitState where
  preBlock : Option MemoryBlock
  continuousMemory : Bool
  isFixedAddrPrior : Bool
  subMemoryInfos : List SubMemoryInfo

def considered (block : MemoryBlock) : Bool := !block.childBlock && !block.isZeroCopy && block.memoryType == rtMemoryHbm

def splitStep (splitSize : Nat) (s : SplitState) (block : MemoryBlock) : SplitState :=
  let opens := block.firstContinuousBlock && !block.lastContinuousBlock
  match s.preBlock with
  | none => { s with
      preBlock := some block
      continuousMemory := opens || s.continuousMemory
      isFixedAddrPrior := s.isFixedAddrPrior || block.isFixedAddrPrior }
  | some preBlock =>
    if block.headOffset - preBlock.headOffset < splitSize ∧ !block.firstContinuousBlock ∨ s.continuousMemory then { s with
      continuousMemory := !block.lastContinuousBlock && s.continuousMemory
      isFixedAddrPrior := s.isFixedAddrPrior || block.isFixedAddrPrior }
    else
      ⟨some block,opens || s.continuousMemory,block.isFixedAddrPrior,
        addSubMemoryInfo ⟨preBlock.memoryType,preBlock.headOffset,block.headOffset - preBlock.headOffset,s.isFixedAddrPrior⟩
          false s.subMemoryInfos⟩

def split (splitSize : Nat) (memBlocks : List MemoryBlock) (memOffset : Option Nat) : List SubMemoryInfo :=
  let s := memBlocks.foldl (fun s block => if considered block then splitStep splitSize s block else s) ⟨none,false,false,[]⟩
  addMemoryInfo memOffset s.isFixedAddrPrior false s.subMemoryInfos

def addContinuousMemoryInfo (memOffset : Option Nat) : List SubMemoryInfo → List SubMemoryInfo :=
  addMemoryInfo memOffset false false

def addIoMemoryInfo (splitSize : Nat) (memOffset : Option Nat) (infos : List SubMemoryInfo) : List SubMemoryInfo :=
  let merged := if memOffset.any (· ≤ splitSize) then
      addSubMemoryInfo ⟨rtMemoryHbm,0,(infos.map SubMemoryInfo.memSize).sum,infos.any SubMemoryInfo.isFixedAddrPrior⟩ false []
    else infos
  addMemoryInfo memOffset false true merged

/-- A call after the split, with the new total. -/
inductive LaterCall where
  | continuous (total : Nat)
  | io (total : Nat)

def LaterCall.total : LaterCall → Nat
  | continuous total => total
  | io total => total

def later (splitSize : Nat) (infos : List SubMemoryInfo) : LaterCall → List SubMemoryInfo
  | .continuous total => addContinuousMemoryInfo (some total) infos
  | .io total => addIoMemoryInfo splitSize (some total) infos

def MemoryBlock.tail (block : MemoryBlock) : Int := block.headOffset + block.size

def Placed : Int → List MemoryBlock → Int → Prop := Tiles (fun block => block.headOffset) MemoryBlock.tail

def inGroup (before : Bool) (block : MemoryBlock) : Bool :=
  (block.firstContinuousBlock || before) && !block.lastContinuousBlock

/-- Groups do not nest, and each has a first and a last block. -/
def Bracketed : Bool → List MemoryBlock → Prop
  | before,[] => before = false
  | before,block :: rest => (before → ¬block.firstContinuousBlock) ∧
    (¬before → block.lastContinuousBlock → block.firstContinuousBlock) ∧ Bracketed (inGroup before block) rest

/-- The segments follow each other from zero on; only those of the input and output may be empty. -/
inductive Abut : List SubMemoryInfo → Int → Prop
  | nil : Abut [] 0
  | concat {infos : List SubMemoryInfo} {a b : Int} {type : Nat} {fixed : Bool} :
    Abut infos a → a ≤ b → Abut (infos ++ [⟨type,a,b - a,fixed⟩]) b

/-- A segment is made of whole blocks, no group is open where it starts, and its mark is that of its blocks. -/
def Holds (blocks : List MemoryBlock) (info : SubMemoryInfo) : Prop :=
  ∃ front part back, blocks = front ++ part ++ back ∧ front.foldl inGroup false = false ∧
    Placed 0 front info.memOffsetBase ∧ Placed info.memOffsetBase part (info.memOffsetBase + info.memSize) ∧
    info.isFixedAddrPrior = part.any MemoryBlock.isFixedAddrPrior

section Later
variable {infos : List SubMemoryInfo} {a : Int} {total : Nat}

section

variable (abut : Abut infos a)
include abut

theorem Abut.sum : (infos.map SubMemoryInfo.memSize).sum = a ∧ 0 ≤ a := by
  induction abut with
  | nil => simp
  | concat _ grows ih =>
    rw [map_append,sum_append,ih.1]
    simp
    omega

theorem addMemoryInfo_cases (fixed io : Bool) :
    addMemoryInfo (some total) fixed io infos = infos ++ [⟨rtMemoryHbm,a,total - a,fixed⟩] ∨
      addMemoryInfo (some total) fixed io infos = infos ∧ total ≤ a := by
  cases abut with
  | nil =>
    simp only [addMemoryInfo,getLast?_nil,addSubMemoryInfo,Int.sub_zero]
    split
    · exact .inl rfl
    · exact .inr ⟨rfl,by simp_all⟩
  | concat =>
    simp only [addMemoryInfo,getLast?_concat,addSubMemoryInfo,add_sub_cancel]
    split
    · exact .inl rfl
    · exact .inr ⟨rfl,by simp_all⟩

theorem Abut.addMemoryInfo (grows : a ≤ total) (fixed io : Bool) :
    Abut (addMemoryInfo (some total) fixed io infos) total := by
  rcases addMemoryInfo_cases abut fixed io with added | ⟨same,full⟩
  · rw [added]
    exact abut.concat grows
  · rw [same]
    exact Int.le_antisymm full grows ▸ abut

theorem Abut.later (splitSize : Nat) (call : LaterCall) (grows : a ≤ call.total) :
    Abut (later splitSize infos call) call.total := by
  cases call with
  | continuous total => exact abut.addMemoryInfo grows false false
  | io total =>
    obtain ⟨sum,nonneg⟩ := abut.sum
    have merged : Abut (if (some total).any (· ≤ splitSize) then
        addSubMemoryInfo ⟨rtMemoryHbm,0,(infos.map SubMemoryInfo.memSize).sum,infos.any SubMemoryInfo.isFixedAddrPrior⟩
          false [] else infos) a := by
      rw [sum,addSubMemoryInfo]
      split
      · split
        · simpa using Abut.nil.concat nonneg
        · next none =>
          have empty : 0 = a := by simp at none; omega
          exact empty ▸ Abut.nil
      · exact abut
    exact merged.addMemoryInfo grows false true

end

theorem Abut.laterCalls (splitSize : Nat) {calls : List LaterCall} (abut : Abut infos total)
    (grow : (total :: calls.map LaterCall.total).IsChain (· ≤ ·)) :
    Abut (calls.foldl (GraphMemSplitter.later splitSize) infos) ((total :: calls.map LaterCall.total).getLast (by simp)) := by
  induction calls generalizing infos total with
  | nil => exact abut
  | cons call calls ih =>
    rw [map_cons,isChain_cons_cons] at grow
    exact ih (abut.later splitSize call (Int.ofNat_le.mpr grow.1)) grow.2

end Later

section Loop
variable {done rest : List MemoryBlock} {block : MemoryBlock} {s : SplitState} {total : Int}

theorem Holds.mono {info : SubMemoryInfo} (holds : Holds done info) (more : List MemoryBlock) : Holds (done ++ more) info := by
  obtain ⟨front,part,back,rfl,closed,placed⟩ := holds
  exact ⟨front,part,back ++ more,by simp,closed,placed⟩

/-- The loop after some blocks: the segments before the block that opens the current one are there. -/
structure Splitting (done : List MemoryBlock) (s : SplitState) : Prop where
  current : ∃ front preBlock part, done = front ++ preBlock :: part ∧ s.preBlock = some preBlock ∧
    front.foldl inGroup false = false ∧ s.isFixedAddrPrior = (preBlock :: part).any MemoryBlock.isFixedAddrPrior ∧
    Abut s.subMemoryInfos preBlock.headOffset
  continuous : s.continuousMemory = done.foldl inGroup false
  holds : ∀ info ∈ s.subMemoryInfos, Holds done info

theorem placed_parts {front : List MemoryBlock} (placed : Placed 0 (front ++ block :: rest) total) :
    Placed 0 front block.headOffset ∧ Placed block.headOffset (block :: rest) total ∧ (block.headOffset : Int) < total := by
  obtain ⟨middle,left,right⟩ := placed.of_append
  obtain rfl := right.1
  exact ⟨left,right,lt_of_lt_of_le right.2.1 right.2.2.le⟩

theorem Splitting.step (splitting : Splitting done s) (splitSize : Nat) (placed : Placed 0 (done ++ [block]) total)
    (flat : s.continuousMemory → ¬block.firstContinuousBlock) :
    Splitting (done ++ [block]) (splitStep splitSize s block) := by
  obtain ⟨⟨front,preBlock,part,rfl,isPre,closed,fixed,abut⟩,continuous,holds⟩ := splitting
  obtain ⟨before,-,-⟩ := placed_parts placed
  obtain ⟨inFront,inPart,later⟩ := placed_parts before
  have after : (front ++ preBlock :: part ++ [block]).foldl inGroup false = inGroup s.continuousMemory block := by
    rw [continuous,foldl_append]
    rfl
  simp only [splitStep,isPre]
  split
  · next stays =>
    refine ⟨⟨front,preBlock,part ++ [block],by simp,rfl,closed,?_,abut⟩,?_,fun info known => (holds info known).mono _⟩
    · simp [fixed,Bool.or_assoc]
    · rw [after,inGroup]
      cases first : block.firstContinuousBlock <;> simp_all [Bool.and_comm]
  · next cut =>
    have outside : s.continuousMemory = false := by simpa using fun inside => cut (.inr inside)
    have info : addSubMemoryInfo ⟨preBlock.memoryType,preBlock.headOffset,block.headOffset - preBlock.headOffset,
        s.isFixedAddrPrior⟩ false s.subMemoryInfos = s.subMemoryInfos ++
          [⟨preBlock.memoryType,preBlock.headOffset,block.headOffset - preBlock.headOffset,s.isFixedAddrPrior⟩] := by
      apply if_pos
      left
      dsimp only
      omega
    refine ⟨⟨front ++ preBlock :: part,block,[],rfl,rfl,continuous ▸ outside,by simp,?_⟩,?_,?_⟩
    · rw [info]
      exact abut.concat later.le
    · rw [after,inGroup,outside]
      simp
    · rw [info]
      intro known there
      rcases mem_append.mp there with old | new
      · exact (holds known old).mono _
      · obtain rfl := mem_singleton.mp new
        refine ⟨front,preBlock :: part,[block],by simp,closed,inFront,?_,fixed⟩
        simpa using inPart

theorem Splitting.run (splitting : Splitting done s) (splitSize : Nat) (placed : Placed 0 (done ++ rest) total)
    (bracketed : Bracketed s.continuousMemory rest) : Splitting (done ++ rest) (rest.foldl (splitStep splitSize) s) := by
  induction rest generalizing done s with
  | nil => simpa using splitting
  | cons block rest ih =>
    obtain ⟨flat,-,bracketed⟩ := bracketed
    rw [append_cons] at placed ⊢
    obtain ⟨_,first,-⟩ := placed.of_append
    have next := splitting.step splitSize first flat
    have continuous : (splitStep splitSize s block).continuousMemory = inGroup s.continuousMemory block := by
      rw [next.continuous,splitting.continuous,foldl_append]
      rfl
    exact ih next placed (continuous ▸ bracketed)

end Loop

/-- The segments tile the memory, each holds whole blocks and groups and is marked as its blocks are; later calls with larger
totals keep this. -/
theorem split_tiles (splitSize total : Nat) (memBlocks : List MemoryBlock)
    (placed : Placed 0 (memBlocks.filter considered) total) (bracketed : Bracketed false (memBlocks.filter considered)) :
    Abut (split splitSize memBlocks (some total)) total ∧
    (∀ info ∈ split splitSize memBlocks (some total), Holds (memBlocks.filter considered) info) ∧
    ∀ calls : List LaterCall, (total :: calls.map LaterCall.total).IsChain (· ≤ ·) →
      Abut (calls.foldl (later splitSize) (split splitSize memBlocks (some total)))
        ((total :: calls.map LaterCall.total).getLast (by simp)) := by
  have whole : Abut (split splitSize memBlocks (some total)) total ∧
      ∀ info ∈ split splitSize memBlocks (some total), Holds (memBlocks.filter considered) info := by
    rw [split,← foldl_filter]
    cases blocks : memBlocks.filter considered with
    | nil =>
      rw [blocks] at placed
      obtain rfl : 0 = total := Int.ofNat_inj.mp placed
      exact ⟨.nil,nofun⟩
    | cons block rest =>
      rw [blocks] at placed bracketed
      have start : Splitting [block] (splitStep splitSize ⟨none,false,false,[]⟩ block) := by
        have origin : (0 : Int) = block.headOffset := placed.1.symm
        refine ⟨⟨[],block,[],rfl,rfl,rfl,by simp [splitStep],origin ▸ .nil⟩,?_,nofun⟩
        simp [splitStep,inGroup]
      have first : (splitStep splitSize ⟨none,false,false,[]⟩ block).continuousMemory = inGroup false block := start.continuous
      obtain ⟨⟨front,preBlock,part,parts,-,closed,fixed,abut⟩,-,holds⟩ :=
        start.run splitSize placed (first ▸ bracketed.2.2)
      rw [foldl_cons]
      have inParts := placed
      rw [← singleton_append,parts] at inParts
      obtain ⟨inFront,inPart,more⟩ := placed_parts inParts
      refine ⟨abut.addMemoryInfo more.le _ _,?_⟩
      rcases addMemoryInfo_cases abut _ false with added | ⟨-,full⟩
      · rw [added]
        intro info there
        rcases mem_append.mp there with old | new
        · exact holds info old
        · obtain rfl := mem_singleton.mp new
          refine ⟨front,preBlock :: part,[],by simpa using parts,closed,inFront,?_,fixed⟩
          simpa using inPart
      · exact absurd more (Int.not_lt.mpr full)
  exact ⟨whole.1,whole.2,fun calls grow => whole.1.laterCalls splitSize grow⟩

def paired : List MemoryBlock :=
  [⟨false,false,2,true,false,false,0,512⟩,⟨false,false,2,false,true,true,512,512⟩]

theorem paired_tiled : split 512 paired (some 1024) = [⟨2,0,1024,true⟩] ∧ Abut (split 512 paired (some 1024)) 1024 := by
  have all : paired.filter considered = paired := rfl
  refine ⟨rfl,(split_tiles 512 1024 paired ?_ ?_).1⟩
  · rw [all]
    simp [Placed,Tiles,paired,MemoryBlock.tail]
  · rw [all]
    simp [Bracketed,paired,inGroup]

end GraphEngine.Memory.GraphMemSplitter
