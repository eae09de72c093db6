import Mathlib.Algebra.Ring.Nat
import Mathlib.Data.List.Forall2
import Mathlib.Order.Basic

/-! Saving models: the lengths and offsets that `OmFileSaveHelper` computes, and the bytes that `FileSaver` lays out for them
in a file or in a memory buffer. -/

namespace GraphEngine.ModelFile

open List

structure ModelPartition where
  type : UInt32
  data : List UInt8

def ModelPartition.size (partition : ModelPartition) : Nat := partition.data.length

structure ModelPartitionMemInfo where
  type : UInt32
  memOffset : Nat
  memSize : Nat

structure ModelPartitionTable where
  num : Nat
  partition : List ModelPartitionMemInfo

def ModelPartitionTable.size (table : ModelPartitionTable) : Nat := 8 + 24 * table.num

/-- An element of the vector of tables with that of the vector of partitions. -/
abbrev Model := ModelPartitionTable × List ModelPartition

structure SaveMode where
  saveToFile : Bool
  isPartitionAlign : Bool
  alignBytes : Nat

def memSizeAlign (bytes aligns : Nat) : Nat :=
  let alignSize := if aligns = 0 then 8 else aligns
  (bytes + alignSize - 1) / alignSize * alignSize

-- `image` gives the bytes that a table has in memory.
variable (mode : SaveMode) (image : ModelPartitionTable → List UInt8)

def SaveMode.size (bytes : Nat) : Nat := if mode.isPartitionAlign then memSizeAlign bytes mode.alignBytes else bytes

def partitionLoop : Nat → List ModelPartition → Option (List ModelPartitionMemInfo)
  | _,[] => some []
  | memOffset,partition :: rest =>
    if memOffset + partition.size < 2 ^ 64 then do
      let infos ← partitionLoop (memOffset + mode.size partition.size) rest
      some (⟨partition.type,memOffset,partition.size⟩ :: infos)
    else none

def getPartitionTable (partitionDatas : List ModelPartition) : Option ModelPartitionTable := do
  let table : ModelPartitionTable := ⟨partitionDatas.length % 2 ^ 32,[]⟩
  let infos ← partitionLoop mode (mode.size table.size - table.size) partitionDatas
  some { table with partition := infos }

/-- The loop of `SaveModel` over the models. -/
def contextLoop : Nat → List (List ModelPartition) → Option (Nat × List Model)
  | modelLength,[] => some (modelLength,[])
  | modelLength,partitionDatas :: rest =>
    if (partitionDatas.map ModelPartition.size).sum = 0 then none
    else do
      let table ← getPartitionTable mode partitionDatas
      let added := mode.size table.size + (partitionDatas.map fun partition => mode.size partition.size).sum
      if added + modelLength < 2 ^ 64 then do
        let later ← contextLoop (modelLength + added) rest
        some (later.1,(table,partitionDatas) :: later.2)
      else none

def CheckParam (model : Model) : Prop := model.2 ≠ [] ∧ model.1.num ≠ 0 ∧ model.1.num = model.2.length

instance : DecidablePred CheckParam := fun model =>
  inferInstanceAs (Decidable (model.2 ≠ [] ∧ model.1.num ≠ 0 ∧ model.1.num = model.2.length))

def saveAll (write : List UInt8 → List UInt8 → Option (List UInt8)) : List Model → List UInt8 → Option (List UInt8)
  | [],out => some out
  | (table,partitionDatas) :: rest,out => do
    let out ← write out (image table)
    let out ← (partitionDatas.map ModelPartition.data).foldlM write out
    saveAll write rest out

def saveToBuffWithFileHeader (models : List Model) : Option (List UInt8) :=
  if (∀ model ∈ models, CheckParam model) ∧
    256 + (models.map fun model => model.1.size + (model.2.map ModelPartition.size).sum).sum < 2 ^ 64
  then saveAll image (fun out data => some (out ++ data)) models []
  else none

def writeData (out data : List UInt8) : Option (List UInt8) := if data.length = 0 then none else some (out ++ data)

/-- The size is passed as 32 bits. -/
def saveWithAlignFill (size alignBytes : Nat) (out : List UInt8) : Option (List UInt8) :=
  let paddingSize := memSizeAlign (size % 2 ^ 32) alignBytes - size % 2 ^ 32
  if 0 < paddingSize then writeData out (List.replicate paddingSize 0) else some out

def writeFilled (out data : List UInt8) : Option (List UInt8) := do
  let out ← writeData out data
  if mode.isPartitionAlign then saveWithAlignFill data.length mode.alignBytes out else some out

def saveWithFileHeader (models : List Model) : Option (List UInt8) :=
  if ∀ model ∈ models, CheckParam model then saveAll image (writeFilled mode) models [] else none

/-- The length in the header, the models with their tables, and the bytes behind the header. -/
structure Saved where
  modelLength : Nat
  models : List Model
  body : List UInt8

def saveModel (contexts : List (List ModelPartition)) : Option Saved :=
  if contexts = [] then none
  else do
    let counted ← contextLoop mode 0 contexts
    let body ← (if mode.saveToFile then saveWithFileHeader mode image else saveToBuffWithFileHeader image) counted.2
    some ⟨counted.1,counted.2,body⟩

section Alignment

variable {k : Nat} (bytes : Nat)

theorem memSizeAlign_pow : memSizeAlign bytes (2 ^ k) = (bytes + 2 ^ k - 1) / 2 ^ k * 2 ^ k := by simp [memSizeAlign]

theorem le_memSizeAlign : bytes ≤ memSizeAlign bytes (2 ^ k) := by
  have rest := Nat.mod_lt (bytes + 2 ^ k - 1) (Nat.two_pow_pos k)
  have whole := Nat.div_add_mod' (bytes + 2 ^ k - 1) (2 ^ k)
  rw [memSizeAlign_pow]
  omega

theorem memSizeAlign_eq_self : memSizeAlign bytes (2 ^ k) = bytes ↔ 2 ^ k ∣ bytes := by
  have positive := Nat.two_pow_pos k
  rw [memSizeAlign_pow]
  constructor
  · intro same
    exact ⟨_,same.symm.trans (Nat.mul_comm _ _)⟩
  · rintro ⟨count,rfl⟩
    rw [Nat.add_sub_assoc positive,Nat.mul_add_div positive,Nat.div_eq_of_lt (Nat.sub_lt positive Nat.one_pos),
      Nat.add_zero,Nat.mul_comm]

/-- The padding depends on the low bits of a size only. -/
theorem memSizeAlign_cut (small : k < 32) :
    memSizeAlign bytes (2 ^ k) = bytes + (memSizeAlign (bytes % 2 ^ 32) (2 ^ k) - bytes % 2 ^ 32) := by
  have low := le_memSizeAlign (k := k) (bytes % 2 ^ 32)
  have power : 2 ^ 32 = 2 ^ k * 2 ^ (32 - k) := by rw [← pow_add,Nat.add_sub_cancel' small.le]
  have parts : bytes + 2 ^ k - 1 = 2 ^ k * (2 ^ (32 - k) * (bytes / 2 ^ 32)) + (bytes % 2 ^ 32 + 2 ^ k - 1) := by
    have := Nat.two_pow_pos k
    rw [← mul_assoc,← power]
    omega
  have whole : memSizeAlign bytes (2 ^ k) = 2 ^ 32 * (bytes / 2 ^ 32) + memSizeAlign (bytes % 2 ^ 32) (2 ^ k) := by
    rw [memSizeAlign_pow,memSizeAlign_pow,parts,Nat.mul_add_div (Nat.two_pow_pos k),add_mul,mul_comm _ (2 ^ k),
      ← mul_assoc,← power]
  omega

end Alignment

def SaveMode.fill (size : Nat) : Nat :=
  if mode.saveToFile ∧ mode.isPartitionAlign then memSizeAlign (size % 2 ^ 32) mode.alignBytes - size % 2 ^ 32 else 0

def padded (data : List UInt8) : List UInt8 := data ++ List.replicate (mode.fill data.length) 0

def bodyOf (models : List Model) : List UInt8 :=
  models.flatMap fun model => padded mode (image model.1) ++ (model.2.map ModelPartition.data).flatMap (padded mode)

/-- The sizes of all tables and partitions. -/
def sizes (models : List Model) : List Nat := models.flatMap fun model => model.1.size :: model.2.map ModelPartition.size

structure Located (content : List UInt8) (info : ModelPartitionMemInfo) (partition : ModelPartition) : Prop where
  type : info.type = partition.type
  size : info.memSize = partition.size
  bytes : (content.drop info.memOffset).take info.memSize = partition.data

/-- The table of each model, then its content, in which the entries locate the partitions, then the next model. -/
def Describes : List Model → List UInt8 → Prop
  | [],body => body = []
  | (table,partitionDatas) :: rest,body => ∃ content tail, body = image table ++ content ++ tail ∧
    Forall₂ (Located content) table.partition partitionDatas ∧ Describes rest tail

structure TablesDescribe (contexts : List (List ModelPartition)) (saved : Saved) : Prop where
  length : saved.modelLength = saved.body.length
  partitions : saved.models.map Prod.snd = contexts
  tables : Describes image saved.models saved.body

variable {mode image}

section Bytes

theorem length_padded (data : List UInt8) : (padded mode data).length = data.length + mode.fill data.length := by
  simp [padded]

variable {write : List UInt8 → List UInt8 → Option (List UInt8)} {out after : List UInt8}
  (appends : ∀ {out data after}, write out data = some after → after = out ++ padded mode data)
include appends

theorem foldlM_padded (datas : List (List UInt8)) (ok : datas.foldlM write out = some after) :
    after = out ++ datas.flatMap (padded mode) := by
  induction datas generalizing out with
  | nil =>
    cases ok
    simp
  | cons data datas ih =>
    rw [foldlM_cons] at ok
    obtain ⟨next,written,ok⟩ := Option.bind_eq_some_iff.mp ok
    rw [ih ok,appends written,flatMap_cons,append_assoc]

theorem saveAll_padded (models : List Model) (ok : saveAll image write models out = some after) :
    after = out ++ bodyOf mode image models := by
  induction models generalizing out with
  | nil =>
    cases ok
    simp [bodyOf]
  | cons model models ih =>
    obtain ⟨next,written,ok⟩ := Option.bind_eq_some_iff.mp ok
    obtain ⟨last,filled,ok⟩ := Option.bind_eq_some_iff.mp ok
    rw [ih ok,foldlM_padded appends _ filled,appends written,bodyOf,bodyOf,flatMap_cons]
    simp only [append_assoc]

end Bytes

theorem writeFilled_padded (toFile : mode.saveToFile) {out data after : List UInt8}
    (ok : writeFilled mode out data = some after) : after = out ++ padded mode data := by
  obtain ⟨next,written,ok⟩ := Option.bind_eq_some_iff.mp ok
  rw [writeData] at written
  split at written
  · cases written
  cases written
  simp only [saveWithAlignFill,writeData,length_replicate] at ok
  simp only [padded,SaveMode.fill,toFile,true_and]
  split at ok
  · next aligned =>
    rw [if_pos aligned]
    split at ok
    · next some =>
      rw [if_neg some.ne'] at ok
      cases ok
      rw [append_assoc]
    · next none =>
      cases ok
      rw [Nat.eq_zero_of_not_pos none]
      simp
  · next plain =>
    cases ok
    simp [plain]

theorem saveModel_body {contexts : List (List ModelPartition)} {saved : Saved}
    (ok : saveModel mode image contexts = some saved) :
    contextLoop mode 0 contexts = some (saved.modelLength,saved.models) ∧ (∀ model ∈ saved.models, CheckParam model) ∧
      saved.body = bodyOf mode image saved.models := by
  rw [saveModel] at ok
  split at ok
  · cases ok
  obtain ⟨counted,isCounted,ok⟩ := Option.bind_eq_some_iff.mp ok
  obtain ⟨body,written,same⟩ := Option.bind_eq_some_iff.mp ok
  cases same
  refine ⟨isCounted,?_⟩
  split at written
  · next toFile =>
    rw [saveWithFileHeader] at written
    split at written
    · next checked => exact ⟨checked,saveAll_padded (writeFilled_padded toFile) _ written⟩
    · cases written
  · next toBuffer =>
    rw [saveToBuffWithFileHeader] at written
    split at written
    · next checked =>
      refine ⟨checked.1,saveAll_padded ?_ _ written⟩
      rintro out data _ ⟨⟩
      simp [padded,SaveMode.fill,toBuffer]
    · cases written

theorem partitionLoop_located (partitionDatas : List ModelPartition)
    (counted : ∀ partition ∈ partitionDatas, mode.size partition.size = partition.size + mode.fill partition.size)
    {front : List UInt8} {infos : List ModelPartitionMemInfo}
    (ok : partitionLoop mode front.length partitionDatas = some infos) :
    Forall₂ (Located (front ++ (partitionDatas.map ModelPartition.data).flatMap (padded mode))) infos partitionDatas := by
  induction partitionDatas generalizing front infos with
  | nil =>
    cases ok
    exact .nil
  | cons partition rest ih =>
    rw [partitionLoop] at ok
    split at ok
    · obtain ⟨later,others,same⟩ := Option.bind_eq_some_iff.mp ok
      cases same
      rw [forall_mem_cons] at counted
      rw [counted.1,ModelPartition.size,← length_padded,← length_append] at others
      have located := ih counted.2 others
      rw [append_assoc] at located
      refine .cons ⟨rfl,rfl,?_⟩ located
      simp [padded,ModelPartition.size]
    · cases ok

theorem contextLoop_spec (contexts : List (List ModelPartition)) {start total : Nat} {models : List Model}
    (ok : contextLoop mode start contexts = some (total,models)) :
    total = start + ((sizes models).map mode.size).sum ∧ (start < 2 ^ 64 → total < 2 ^ 64) ∧ models.map Prod.snd = contexts ∧
    ∀ model ∈ models, getPartitionTable mode model.2 = some model.1 ∧ (model.2.map ModelPartition.size).sum ≠ 0 := by
  induction contexts generalizing start models with
  | nil =>
    cases ok
    exact ⟨rfl,id,rfl,nofun⟩
  | cons partitionDatas contexts ih =>
    rw [contextLoop] at ok
    split at ok
    · cases ok
    rename_i some_
    obtain ⟨table,isTable,ok⟩ := Option.bind_eq_some_iff.mp ok
    dsimp only at ok
    split at ok
    · obtain ⟨⟨_,later⟩,others,same⟩ := Option.bind_eq_some_iff.mp ok
      cases same
      obtain ⟨totalEq,below,rfl,found⟩ := ih others
      refine ⟨?_,fun _ => below (by omega),rfl,forall_mem_cons.mpr ⟨⟨isTable,some_⟩,found⟩⟩
      rw [totalEq]
      simp [sizes,add_assoc,Function.comp_def]
    · cases ok

section Sized

variable (models : List Model) (sized : ∀ model ∈ models, (image model.1).length = model.1.size)
include sized

theorem length_bodyOf : (bodyOf mode image models).length = ((sizes models).map fun size => size + mode.fill size).sum := by
  rw [bodyOf,length_flatMap,sizes,map_flatMap,flatMap_def,sum_flatten,map_map]
  refine congrArg sum (map_congr_left fun model inside => ?_)
  simp only [length_append,length_flatMap,length_padded,sized model inside,map_cons,sum_cons,map_map,Function.comp_def,
    ModelPartition.size]

theorem describes_bodyOf (found : ∀ model ∈ models, getPartitionTable mode model.2 = some model.1)
    (counted : ∀ size ∈ sizes models, mode.size size = size + mode.fill size) :
    Describes image models (bodyOf mode image models) := by
  induction models with
  | nil => rfl
  | cons model models ih =>
    obtain ⟨table,partitionDatas⟩ := model
    rw [forall_mem_cons] at found sized
    simp only [sizes,flatMap_cons,cons_append,forall_mem_cons,forall_mem_append,forall_mem_map] at counted
    refine ⟨List.replicate (mode.fill table.size) 0 ++ (partitionDatas.map ModelPartition.data).flatMap (padded mode),_,?_,?_,
      ih sized.2 found.2 counted.2.2⟩
    · rw [bodyOf,flatMap_cons,padded,sized.1]
      simp only [append_assoc]
      rfl
    · obtain ⟨infos,located,same⟩ := Option.bind_eq_some_iff.mp found.1
      dsimp only at located same
      obtain rfl := Option.some.inj same
      apply partitionLoop_located partitionDatas counted.2.1
      rw [length_replicate,← Nat.add_sub_cancel_left (ModelPartitionTable.size _) (mode.fill _),← counted.1]
      exact located

end Sized

theorem sum_map_eq_iff {least most : Nat → Nat} (below : ∀ size, least size ≤ most size) (items : List Nat) :
    (items.map least).sum ≤ (items.map most).sum ∧
      ((items.map most).sum = (items.map least).sum ↔ ∀ size ∈ items, most size = least size) := by
  induction items with
  | nil => simp
  | cons size items ih =>
    have := below size
    rw [forall_mem_cons,← ih.2,map_cons,map_cons,sum_cons,sum_cons]
    omega

theorem size_eq_iff {k : Nat} (small : k < 32) (power : mode.alignBytes = 2 ^ k) (size : Nat) :
    size + mode.fill size ≤ mode.size size ∧ (mode.size size = size + mode.fill size ↔
      mode.saveToFile = true ∨ mode.isPartitionAlign = false ∨ mode.alignBytes ∣ size) := by
  have cut := memSizeAlign_cut size small
  have low := le_memSizeAlign (k := k) size
  cases toFile : mode.saveToFile <;> cases aligned : mode.isPartitionAlign <;>
    simp [-Nat.reducePow,SaveMode.fill,SaveMode.size,toFile,aligned,power,← cut,low,memSizeAlign_eq_self]

/-- No table and no partition needs padding. -/
def Aligned (alignBytes : Nat) (contexts : List (List ModelPartition)) : Prop :=
  ∀ partitionDatas ∈ contexts, alignBytes ∣ 8 + 24 * partitionDatas.length ∧
    ∀ partition ∈ partitionDatas, alignBytes ∣ partition.size

theorem aligned_iff {models : List Model} (checked : ∀ model ∈ models, CheckParam model) (alignBytes : Nat) :
    Aligned alignBytes (models.map Prod.snd) ↔ ∀ size ∈ sizes models, alignBytes ∣ size := by
  rw [Aligned,forall_mem_map,sizes,forall_mem_flatMap]
  refine forall₂_congr fun model inside => ?_
  rw [forall_mem_cons,forall_mem_map,ModelPartitionTable.size,(checked model inside).2.2]

/-- The tables describe the bytes in a file, and without alignment also in a buffer. With alignment the buffer has none of the
padding that the tables and the header count. -/
theorem model_tables_describe_iff (mode : SaveMode) (k : Nat) (small : k < 32) (power : mode.alignBytes = 2 ^ k)
    (image : ModelPartitionTable → List UInt8) (sized : ∀ table, (image table).length = table.size)
    (contexts : List (List ModelPartition)) (saved : Saved) (saves : saveModel mode image contexts = some saved) :
    TablesDescribe image contexts saved ↔
      mode.saveToFile = true ∨ mode.isPartitionAlign = false ∨ Aligned mode.alignBytes contexts := by
  obtain ⟨counted,checked,body⟩ := saveModel_body saves
  obtain ⟨total,-,partitions,found⟩ := contextLoop_spec contexts counted
  have length_body : (bodyOf mode image saved.models).length = _ := length_bodyOf saved.models fun model _ => sized model.1
  have sums := (sum_map_eq_iff (fun size => (size_eq_iff small power size).1) (sizes saved.models)).2
  have exact : (∀ size ∈ sizes saved.models, mode.size size = size + mode.fill size) ↔
      mode.saveToFile = true ∨ mode.isPartitionAlign = false ∨ ∀ size ∈ sizes saved.models, mode.alignBytes ∣ size := by
    simp only [(size_eq_iff small power _).2]
    cases mode.saveToFile <;> cases mode.isPartitionAlign <;> simp
  rw [← partitions,aligned_iff checked,← exact,← sums,← length_body,← body]
  constructor
  · rintro ⟨length,-,-⟩
    omega
  · intro length
    rw [body,length_body,sums] at length
    refine ⟨?_,rfl,body ▸ describes_bodyOf _ (fun model _ => sized model.1) (fun model inside => (found model inside).1) length⟩
    rw [total,body,length_body,sums.mpr length,Nat.zero_add]

theorem file_described : ∃ saved, saveModel ⟨true,true,64⟩ (fun table => List.replicate table.size 0)
    [[⟨0,[1,2,3]⟩]] = some saved ∧
    TablesDescribe (fun table => List.replicate table.size 0) [[⟨0,[1,2,3]⟩]] saved :=
  ⟨_,rfl,(model_tables_describe_iff ⟨true,true,64⟩ 6 (by decide) rfl _ (fun _ => length_replicate) _ _ rfl).mpr (.inl rfl)⟩

/-- The header counts 128 bytes and the entry points 32 bytes behind the table, where nothing is. -/
theorem buffer_not_described : ∃ saved,
    saveModel ⟨false,true,64⟩ (fun table => List.replicate table.size 0) [[⟨0,[1,2,3]⟩]] = some saved ∧
    saved.modelLength = 128 ∧ saved.body.length = 35 ∧
    (saved.models.map fun model => model.1.partition.map ModelPartitionMemInfo.memOffset) = [[32]] :=
  ⟨_,rfl,rfl,rfl,rfl⟩

end GraphEngine.ModelFile
