import Mathlib.Algebra.Order.BigOperators.Group.List
import Mathlib.Algebra.Order.Group.Nat
import Mathlib.Data.Nat.Cast.Basic
import GraphEngine.Lib.Cursor
import GraphEngine.ModelFile.OmFileHelper

/-! Loading models: `OmFileLoadHelper` walks over the bytes behind the header. It goes by the sizes in the tables and not by
their offsets, so it accepts exactly tables and partitions that follow each other without a gap. -/

namespace GraphEngine.ModelFile
open List Lib

inductive LoadError where
  | modelDataSizeInvalid
  | paramInvalid
  | failed

structure ModelFileHeader where
  isFlowModel : Bool
  modelLength : Nat

/-- The number in the first bytes, the lowest byte first. -/
def leValue : Nat → List UInt8 → Nat
  | 0,_ => 0
  | k + 1,bytes => (bytes.headD 0).toNat + 256 * leValue k bytes.tail

def leBytes : Nat → Nat → List UInt8
  | 0,_ => []
  | k + 1,value => UInt8.ofNat value :: leBytes k (value / 256)

/-- The entries of a table, with the sizes and places of their fields. -/
def readInfos (size offsetAt sizeAt width : Nat) : Nat → List UInt8 → List ModelPartitionMemInfo
  | 0,_ => []
  | num + 1,bytes => ⟨UInt32.ofNat (leValue 4 bytes),leValue width (bytes.drop offsetAt),leValue width (bytes.drop sizeAt)⟩ ::
    readInfos size offsetAt sizeAt width num (bytes.drop size)

def toModelPartitionTable (bytes : List UInt8) : ModelPartitionTable :=
  ⟨leValue 4 bytes,readInfos 24 8 16 8 (leValue 4 bytes) (bytes.drop 8)⟩

def convertToModelPartitionTable (bytes : List UInt8) : ModelPartitionTable :=
  ⟨leValue 4 bytes,readInfos 12 4 8 4 (leValue 4 bytes) (bytes.drop 4)⟩

def ModelPartitionMemInfo.image (info : ModelPartitionMemInfo) : List UInt8 :=
  leBytes 4 info.type.toNat ++ (leBytes 4 0 ++ (leBytes 8 info.memOffset ++ leBytes 8 info.memSize))

def ModelPartitionTable.image (table : ModelPartitionTable) : List UInt8 :=
  leBytes 4 table.num ++ (leBytes 4 0 ++ table.partition.flatMap ModelPartitionMemInfo.image)

def partitionSize : Nat := 5

def kOptionalNum : Nat := 2

def kMaxIncreasePartitionNum : Nat := 2

def kMaxFlowModelPartitionNum : Nat := 4096

def isPartitionTableNumValid (partitionNum increasePartitionNum : Nat) : Bool :=
  partitionNum == partitionSize + increasePartitionNum || partitionNum == partitionSize - 1 + increasePartitionNum ||
    partitionNum == partitionSize - kOptionalNum + increasePartitionNum || partitionNum == 1 + increasePartitionNum

def checkPartitionTableNum (partitionNum : Nat) : Bool :=
  (List.range (kMaxIncreasePartitionNum + 1)).any (isPartitionTableNumValid partitionNum)

def numAccepted (isFlowModel : Bool) (num : Nat) : Bool :=
  if isFlowModel then num ≤ kMaxFlowModelPartitionNum else checkPartitionTableNum num

variable (fileHeader : Option ModelFileHeader) (modelData : List UInt8)

/-- The table at the beginning of the bytes, with its size there. -/
def readTable (bytes : List UInt8) : ModelPartitionTable × Nat :=
  if fileHeader.any fun header => header.isFlowModel || header.modelLength ≠ 0 then
    (toModelPartitionTable bytes,(toModelPartitionTable bytes).size)
  else (convertToModelPartitionTable bytes,4 + 12 * (convertToModelPartitionTable bytes).num)

/-- The body of the loop over the entries. -/
def loadPartition (info : ModelPartitionMemInfo) : StateT Nat (Except LoadError) ModelPartition := fun memOffset =>
  if info.memSize > modelData.length ∨ memOffset > modelData.length - info.memSize then .error .modelDataSizeInvalid
  else if 2 ^ 64 ≤ memOffset + info.memSize then .error .failed
  else .ok (⟨info.type,(modelData.drop memOffset).take info.memSize⟩,memOffset + info.memSize)

def loadModelPartitionTable : StateT Nat (Except LoadError) (List ModelPartition) := fun memOffset =>
  if modelData.length < memOffset ∨ modelData.length - memOffset ≤ 8 then .error .modelDataSizeInvalid
  else
    let read := readTable fileHeader (modelData.drop memOffset)
    if numAccepted (fileHeader.any (·.isFlowModel)) read.1.num = false then .error .paramInvalid
    else if 2 ^ 64 ≤ memOffset + read.2 then .error .failed
    else if modelData.length ≤ memOffset + read.2 then .error .modelDataSizeInvalid
    else read.1.partition.mapM (loadPartition modelData) (memOffset + read.2)

/-- `Init` of a fresh helper with the number of models. -/
def init (modelNum : Nat) : Except LoadError (List (List ModelPartition)) := do
  let (contexts,curOffset) ← (replicate modelNum ()).mapM (fun _ => loadModelPartitionTable fileHeader modelData) 0
  if curOffset ≠ modelData.length then .error .failed else .ok contexts

/-- The bytes of one partition. -/
def PartitionBytes (info : ModelPartitionMemInfo) (used _tail : List UInt8) (partition : ModelPartition) : Prop :=
  partition = ⟨info.type,used⟩ ∧ used.length = info.memSize

/-- The bytes of one model: a table that is accepted and is not all there is, and the partitions that it lists. -/
def ModelBytes (_ : Unit) (used tail : List UInt8) (partitionDatas : List ModelPartition) : Prop :=
  ∃ table head content, used = head ++ content ∧ readTable fileHeader (used ++ tail) = (table,head.length) ∧
    numAccepted (fileHeader.any (·.isFlowModel)) table.num = true ∧ max 8 head.length < (used ++ tail).length ∧
    Chain PartitionBytes table.partition content tail partitionDatas

def Tiled (modelNum : Nat) (contexts : List (List ModelPartition)) : Prop :=
  Chain (ModelBytes fileHeader) (replicate modelNum ()) modelData [] contexts

variable {fileHeader modelData}

section Loading

variable (small : modelData.length < 2 ^ 64)
include small

theorem loadPartition_takes (info : ModelPartitionMemInfo) :
    Takes modelData (loadPartition modelData info) (PartitionBytes info) := by
  rintro front body item stop rfl
  rw [length_append] at small
  rw [loadPartition,length_append]
  constructor
  · intro ok
    obtain ⟨inside,ok⟩ := check_ok ok
    obtain ⟨-,ok⟩ := check_ok ok
    cases ok
    have enough : info.memSize ≤ body.length := by omega
    exact ⟨body.take info.memSize,body.drop info.memSize,by simp,by simp [PartitionBytes,enough],by simp [enough]⟩
  · rintro ⟨used,tail,rfl,⟨rfl,length⟩,rfl⟩
    rw [length_append] at small
    rw [← length,if_neg (by simp; omega),if_neg (by omega)]
    simp

theorem loadModelPartitionTable_takes (model : Unit) :
    Takes modelData (loadModelPartitionTable fileHeader modelData) (ModelBytes fileHeader model) := by
  intro front body partitionDatas stop whole
  have parts := Takes.mapM (loadPartition_takes small)
  have behind : modelData.drop front.length = body := by simp [whole]
  have sum : modelData.length = front.length + body.length := by simp [whole]
  rw [loadModelPartitionTable,behind,sum]
  constructor
  · intro ok
    obtain ⟨enough,ok⟩ := check_ok ok
    obtain ⟨⟨table,size⟩,isRead⟩ : ∃ read, readTable fileHeader body = read := ⟨_,rfl⟩
    rw [isRead] at ok
    obtain ⟨accepted,ok⟩ := check_ok ok
    obtain ⟨-,ok⟩ := check_ok ok
    obtain ⟨more,ok⟩ := check_ok ok
    dsimp only at more ok
    have length : (body.take size).length = size := length_take_of_le (by omega)
    have cut : modelData = front ++ body.take size ++ body.drop size := by simp [whole]
    rw [← length,← length_append,parts _ cut] at ok
    obtain ⟨content,tail,rest,chain,rfl⟩ := ok
    have split : body.take size ++ content ++ tail = body := by rw [append_assoc,← rest,take_append_drop]
    refine ⟨_,tail,split.symm,⟨table,_,content,rfl,?_,by simpa using accepted,?_,chain⟩,by simp⟩
    · rw [split,isRead,length]
    · rw [split]
      omega
  · rintro ⟨_,tail,rfl,⟨table,head,content,rfl,isRead,accepted,more,chain⟩,rfl⟩
    have cut : modelData = front ++ head ++ (content ++ tail) := by simp [whole]
    rw [sum] at small
    rw [if_neg (by omega),isRead]
    dsimp only
    rw [if_neg (by rw [accepted]; decide),if_neg (by omega),if_neg (by omega),← length_append,parts _ cut]
    exact ⟨content,tail,rfl,chain,by simp⟩

variable {modelNum : Nat} {contexts : List (List ModelPartition)}

theorem loadModels_iff : (replicate modelNum ()).mapM (fun _ => loadModelPartitionTable fileHeader modelData) 0 =
    .ok (contexts,modelData.length) ↔ Tiled fileHeader modelData modelNum contexts :=
  (Takes.mapM (loadModelPartitionTable_takes small) _).whole contexts

theorem tiled_of_init (ok : init fileHeader modelData modelNum = .ok contexts) :
    Tiled fileHeader modelData modelNum contexts := by
  obtain ⟨⟨_,_⟩,loaded,ok⟩ := bind_ok ok
  obtain ⟨whole,same⟩ := check_ok ok
  cases same
  rw [← loadModels_iff small,loaded,not_not.mp whole]

theorem init_of_tiled (tiled : Tiled fileHeader modelData modelNum contexts) :
    init fileHeader modelData modelNum = .ok contexts := by
  rw [init,(loadModels_iff small).mpr tiled]
  exact if_neg (not_not.mpr rfl)

end Loading

section Saving

variable {mode : SaveMode} {header : ModelFileHeader} {infos : List ModelPartitionMemInfo} {partitionDatas : List ModelPartition}

theorem leValue_leBytes (k : Nat) {value : Nat} (small : value < 256 ^ k) (rest : List UInt8) :
    leValue k (leBytes k value ++ rest) = value := by
  induction k generalizing value with
  | zero => simp_all [leValue]
  | succ k ih =>
    have high : value / 256 < 256 ^ k := Nat.div_lt_of_lt_mul (by rwa [← pow_succ'])
    rw [leBytes,cons_append,leValue,tail_cons,ih high,headD_cons,UInt8.toNat_ofNat']
    exact Nat.mod_add_div value 256

theorem length_leBytes (k value : Nat) : (leBytes k value).length = k := by
  induction k generalizing value with
  | zero => rfl
  | succ k ih => rw [leBytes,length_cons,ih]

theorem readInfos_image (rest : List UInt8)
    (small : ∀ info ∈ infos, info.memOffset < 2 ^ 64 ∧ info.memSize < 2 ^ 64) :
    readInfos 24 8 16 8 infos.length (infos.flatMap ModelPartitionMemInfo.image ++ rest) = infos := by
  induction infos with
  | nil => rfl
  | cons info infos ih =>
    rw [forall_mem_cons] at small
    have offset := leValue_leBytes 8 small.1.1
    have size := leValue_leBytes 8 small.1.2
    have type := leValue_leBytes 4 info.type.toNat_lt
    simp only [flatMap_cons,ModelPartitionMemInfo.image,append_assoc,length_cons,readInfos,type,UInt32.ofNat_toNat]
    simp [drop_append,length_leBytes,drop_eq_nil_of_le,offset,size,ih small.2]

theorem partitionLoop_chain {memOffset : Nat} (ok : partitionLoop mode memOffset partitionDatas = some infos)
    (tail : List UInt8) :
    (∀ info ∈ infos, info.memOffset < 2 ^ 64 ∧ info.memSize < 2 ^ 64) ∧ infos.length = partitionDatas.length ∧
    Chain PartitionBytes infos (partitionDatas.flatMap ModelPartition.data) tail partitionDatas := by
  induction partitionDatas generalizing memOffset infos with
  | nil =>
    cases ok
    exact ⟨fun _ none_ => absurd none_ not_mem_nil,rfl,.nil⟩
  | cons partition rest ih =>
    rw [partitionLoop] at ok
    split at ok
    · obtain ⟨later,others,same⟩ := Option.bind_eq_some_iff.mp ok
      cases same
      obtain ⟨small,length,chain⟩ := ih others
      exact ⟨forall_mem_cons.mpr ⟨by dsimp only; omega,small⟩,congrArg (· + 1) length,.cons ⟨rfl,rfl⟩ chain⟩
    · cases ok

theorem numAccepted_lt {isFlowModel : Bool} {num : Nat} (accepted : numAccepted isFlowModel num = true) : num < 2 ^ 32 := by
  cases isFlowModel with
  | true => exact (of_decide_eq_true accepted).trans_lt (by decide)
  | false =>
    simp [numAccepted,checkPartitionTableNum,isPartitionTableNumValid,partitionSize,kOptionalNum,kMaxIncreasePartitionNum,
      range_succ] at accepted
    omega

theorem length_image (infos : List ModelPartitionMemInfo) :
    (ModelPartitionTable.image ⟨infos.length,infos⟩).length = 8 + 24 * infos.length := by
  have length : (infos.flatMap ModelPartitionMemInfo.image).length = 24 * infos.length := by
    simp [length_flatMap,ModelPartitionMemInfo.image,length_leBytes,Nat.mul_comm]
  simp only [ModelPartitionTable.image,length_append,length_leBytes,length]
  omega

theorem table_length {table : ModelPartitionTable} (found : getPartitionTable mode partitionDatas = some table)
    (checked : CheckParam (table,partitionDatas)) : table.image.length = table.size := by
  obtain ⟨infos,loop,same⟩ := Option.bind_eq_some_iff.mp found
  obtain ⟨-,length,-⟩ := partitionLoop_chain loop []
  cases same
  have num : partitionDatas.length % 2 ^ 32 = infos.length := checked.2.2.trans length.symm
  rw [num,length_image,ModelPartitionTable.size]

theorem readTable_image (counted : header.modelLength ≠ 0) (few : infos.length < 2 ^ 32)
    (small : ∀ info ∈ infos, info.memOffset < 2 ^ 64 ∧ info.memSize < 2 ^ 64) (rest : List UInt8) :
    readTable (some header) (ModelPartitionTable.image ⟨infos.length,infos⟩ ++ rest) =
      (⟨infos.length,infos⟩,(ModelPartitionTable.image ⟨infos.length,infos⟩).length) := by
  have num := leValue_leBytes 4 few
  have back : toModelPartitionTable (ModelPartitionTable.image ⟨infos.length,infos⟩ ++ rest) = ⟨infos.length,infos⟩ := by
    simp [toModelPartitionTable,ModelPartitionTable.image,num,drop_append,length_leBytes,drop_eq_nil_of_le,
      readInfos_image rest small]
  simp [readTable,counted,back,length_image,ModelPartitionTable.size]

theorem modelBytes (counted : header.modelLength ≠ 0) {table : ModelPartitionTable}
    (found : getPartitionTable mode partitionDatas = some table)
    (accepted : numAccepted header.isFlowModel partitionDatas.length = true)
    (some_ : (partitionDatas.map ModelPartition.size).sum ≠ 0) (tail : List UInt8) :
    ModelBytes (some header) () (table.image ++ partitionDatas.flatMap ModelPartition.data) tail partitionDatas := by
  obtain ⟨infos,loop,same⟩ := Option.bind_eq_some_iff.mp found
  obtain ⟨small,length,chain⟩ := partitionLoop_chain loop tail
  rw [Nat.mod_eq_of_lt (numAccepted_lt accepted),← length] at same
  cases same
  rw [← length] at accepted
  refine ⟨⟨infos.length,infos⟩,_,_,rfl,?_,accepted,?_,chain⟩
  · rw [append_assoc]
    exact readTable_image counted (numAccepted_lt accepted) small _
  · have length : (partitionDatas.flatMap ModelPartition.data).length = (partitionDatas.map ModelPartition.size).sum :=
      length_flatMap
    rw [length_append,length_append,length_image]
    omega

theorem saveAll_succeeds (models : List Model) (out : List UInt8) :
    ∃ body, saveAll ModelPartitionTable.image (fun out data => some (out ++ data)) models out = some body := by
  induction models generalizing out with
  | nil => exact ⟨out,rfl⟩
  | cons model models ih =>
    obtain ⟨body,ok⟩ := ih ((model.2.map ModelPartition.data).foldl (· ++ ·) (out ++ model.1.image))
    refine ⟨body,?_⟩
    rw [← ok]
    exact congrArg (Option.bind · _) foldlM_pure

/-- The bytes of a table and its partitions. -/
def contextSize (partitionDatas : List ModelPartition) : Nat :=
  8 + 24 * partitionDatas.length + (partitionDatas.map ModelPartition.size).sum

variable (plain : mode.isPartitionAlign = false)
include plain

theorem bodyOf_cons (model : Model) (models : List Model) : bodyOf mode ModelPartitionTable.image (model :: models) =
    model.1.image ++ model.2.flatMap ModelPartition.data ++ bodyOf mode ModelPartitionTable.image models := by
  have none : padded mode = id := by
    ext1 data
    simp [padded,SaveMode.fill,plain]
  simp [bodyOf,none,flatMap_map]

theorem tiled_bodyOf (models : List Model) (each : ∀ model ∈ models, ∀ tail,
      ModelBytes (some header) () (model.1.image ++ model.2.flatMap ModelPartition.data) tail model.2) :
    Tiled (some header) (bodyOf mode ModelPartitionTable.image models) models.length (models.map Prod.snd) := by
  induction models with
  | nil => exact .nil
  | cons model models ih =>
    rw [forall_mem_cons] at each
    rw [Tiled,bodyOf_cons plain]
    exact .cons (each.1 _) (ih each.2)

theorem saved_tiled {contexts : List (List ModelPartition)} {saved : Saved} {isFlowModel : Bool}
    (saves : saveModel mode ModelPartitionTable.image contexts = some saved)
    (fits : ∀ partitionDatas ∈ contexts, numAccepted isFlowModel partitionDatas.length = true) :
    saved.body.length < 2 ^ 64 ∧ Tiled (some ⟨isFlowModel,saved.modelLength⟩) saved.body contexts.length contexts := by
  obtain ⟨counted,checked,body⟩ := saveModel_body saves
  obtain ⟨total,below,rfl,found⟩ := contextLoop_spec contexts counted
  have same : mode.size = fun size => size + mode.fill size := by
    ext size
    simp [SaveMode.size,SaveMode.fill,plain]
  have small : saved.body.length < 2 ^ 64 := by
    rw [body,length_bodyOf _ fun model inside => table_length (found model inside).1 (checked model inside),← same]
    have bound := below (by decide)
    omega
  refine ⟨small,?_⟩
  rw [body,length_map]
  apply tiled_bodyOf plain
  intro model inside tail
  have counted : saved.modelLength ≠ 0 := by
    have listed : model.1.size ∈ sizes saved.models := mem_flatMap.mpr ⟨model,inside,mem_cons_self⟩
    have least := le_sum_of_mem (mem_map_of_mem (f := mode.size) listed)
    rw [SaveMode.size,plain,ModelPartitionTable.size] at least
    simp at least
    omega
  obtain ⟨isTable,some_⟩ := found model inside
  exact modelBytes counted isTable (fits _ (mem_map_of_mem inside)) some_ tail

theorem partitionLoop_succeeds {memOffset : Nat}
    (room : memOffset + (partitionDatas.map ModelPartition.size).sum < 2 ^ 64) :
    ∃ infos, partitionLoop mode memOffset partitionDatas = some infos := by
  induction partitionDatas generalizing memOffset with
  | nil => exact ⟨[],rfl⟩
  | cons partition rest ih =>
    rw [map_cons,sum_cons] at room
    obtain ⟨infos,ok⟩ := @ih (memOffset + partition.size) (by omega)
    rw [partitionLoop,if_pos (by omega),SaveMode.size,plain]
    exact ⟨_,Option.bind_eq_some_iff.mpr ⟨infos,ok,rfl⟩⟩

theorem contextLoop_succeeds (contexts : List (List ModelPartition)) {start : Nat}
    (few : ∀ partitionDatas ∈ contexts, partitionDatas.length < 2 ^ 32)
    (some_ : ∀ partitionDatas ∈ contexts, (partitionDatas.map ModelPartition.size).sum ≠ 0)
    (room : start + (contexts.map contextSize).sum < 2 ^ 64) :
    ∃ total models, contextLoop mode start contexts = some (total,models) ∧ (∀ model ∈ models, CheckParam model) ∧
      (models.map fun model => model.1.size + (model.2.map ModelPartition.size).sum) = contexts.map contextSize := by
  induction contexts generalizing start with
  | nil => exact ⟨start,[],rfl,by simp,rfl⟩
  | cons partitionDatas contexts ih =>
    have same : mode.size = id := by
      ext size
      simp [SaveMode.size,plain]
    rw [forall_mem_cons] at few some_
    rw [map_cons,sum_cons] at room
    have whole : contextSize partitionDatas = 8 + 24 * partitionDatas.length + _ := rfl
    obtain ⟨infos,loop⟩ := @partitionLoop_succeeds _ partitionDatas plain 0 (by omega)
    have found : getPartitionTable mode partitionDatas = some ⟨partitionDatas.length,infos⟩ := by
      simpa [getPartitionTable,same,loop] using few.1
    obtain ⟨total,models,ok,checked,sums⟩ := @ih (start + contextSize partitionDatas) few.2 some_.2 (by omega)
    have filled : partitionDatas ≠ [] := by
      rintro rfl
      exact some_.1 rfl
    refine ⟨total,(⟨partitionDatas.length,infos⟩,partitionDatas) :: models,?_,
      forall_mem_cons.mpr ⟨⟨filled,mt length_eq_zero_iff.mp filled,rfl⟩,checked⟩,congrArg (_ :: ·) sums⟩
    have fits : ModelPartitionTable.size ⟨partitionDatas.length,infos⟩ + (partitionDatas.map ModelPartition.size).sum =
      contextSize partitionDatas := rfl
    rw [contextLoop,if_neg some_.1,found,same]
    exact (if_pos (by simp [fits]; omega)).trans (by simp [fits,ok])

end Saving

/-- The loader accepts exactly the bytes that tables and partitions fill one after the other. -/
theorem init_ok_iff_tiled (fileHeader : Option ModelFileHeader) (modelData : List UInt8) (small : modelData.length < 2 ^ 64)
    (modelNum : Nat) (contexts : List (List ModelPartition)) :
    init fileHeader modelData modelNum = .ok contexts ↔ Tiled fileHeader modelData modelNum contexts :=
  ⟨tiled_of_init small,init_of_tiled small⟩

theorem one_partition_tiled :
    Tiled (some ⟨false,1⟩) (ModelPartitionTable.image ⟨1,[⟨5,0,2⟩]⟩ ++ [9,8]) 1 [[⟨5,[9,8]⟩]] :=
  (init_ok_iff_tiled _ _ (by decide) 1 _).mp rfl

/-- What is saved without alignment, to a file or to a buffer, is loaded back. -/
theorem saved_models_load (mode : SaveMode) (plain : mode.isPartitionAlign = false) (contexts : List (List ModelPartition))
    (saved : Saved) (saves : saveModel mode ModelPartitionTable.image contexts = some saved) (isFlowModel : Bool)
    (fits : ∀ partitionDatas ∈ contexts, numAccepted isFlowModel partitionDatas.length = true) :
    init (some ⟨isFlowModel,saved.modelLength⟩) saved.body contexts.length = .ok contexts := by
  obtain ⟨small,tiled⟩ := saved_tiled plain saves fits
  exact init_of_tiled small tiled

def twoModels : List (List ModelPartition) := [[⟨0,[1,2,3]⟩,⟨1,[]⟩],[⟨2,[7]⟩]]

theorem twoModels_load : ∃ saved, saveModel ⟨false,false,0⟩ ModelPartitionTable.image twoModels = some saved ∧
    init (some ⟨false,saved.modelLength⟩) saved.body twoModels.length = .ok twoModels :=
  ⟨_,rfl,saved_models_load ⟨false,false,0⟩ rfl twoModels _ rfl false (by decide)⟩

end GraphEngine.ModelFile
